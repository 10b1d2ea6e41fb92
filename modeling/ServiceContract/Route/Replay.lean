import ServiceContract.Route.Body

/-! # Replaying a program

The scripts of statics and functions are carried out for the scopes that they make and register.
A call from an entry point binds the scopes among its arguments to the parameters of the function;
any other function is replayed once, and later calls give the scope of that time.

A replay is the list of the moves that it makes. What is known between two moves follows from those
before. A call or a static goes to another script, one level down: a chain of scripts holds each
function and each static only once, so the number of both bounds the levels.
-/

namespace ServiceContract

/-- How a function comes to be replayed. -/
inductive Way
  /-- By a call that binds none of its parameters. -/
  | called
  /-- By a call from an entry point that binds scopes to parameters. -/
  | bound (params : Locals)
  /-- In its turn as an entry point. -/
  | entry
  /-- In its turn after all entry points. -/
  | remaining

/-- What calls in a script may do. -/
structure Rights where
  /-- They bind scopes to parameters. -/
  binds : Bool := false
  /-- Serving calls may name the root. -/
  serves : Bool := false

namespace Way

def params : Way → Locals
  | bound params => params
  | _ => []

def rights : Way → Rights
  | entry => { binds := true, serves := true }
  | bound _ => { serves := true }
  | called => {}
  | remaining => {}

/-- Whether a function is passed over if it has been begun before. -/
def once : Way → Bool
  | called => true
  | remaining => true
  | bound _ => false
  | entry => false

end Way

/-- What a script asks for, or a program in turn. -/
inductive Jump
  /-- The scope of a static. -/
  | static (name : String)
  /-- The scope that the body of a function gives. -/
  | function (f : FnDecl) (way : Way)

/-- A change that a replay makes. -/
inductive Move
  /-- A scope is made. -/
  | make (operators : List OperatorRef)
  /-- A scope is registered under another one. -/
  | link (parent child : ScopeId)
  | attach (id : ScopeId) (operators : List OperatorRef)
  /-- A scope is served where that names the root. -/
  | serve (id : ScopeId)
  /-- The value of a static is asked for the first time. -/
  | enter (name : String)
  /-- The scope of a static is known. -/
  | leave (name : String) (scope : Option ScopeId)
  /-- The body of a function is begun. -/
  | begin (f : FnDecl) (way : Way)
  /-- The body of a function has ended with a result. -/
  | finish (f : FnDecl) (way : Way) (scope : Option ScopeId)

/-- What is known in the middle of a replay. -/
structure ReplayState where
  forest : ScopeForest := {}
  /-- The scopes of statics by name; none while the value is being replayed. -/
  statics : List (String × Option ScopeId) := []
  /-- The scopes that functions called without bound parameters gave. -/
  returned : List (String × Option ScopeId) := []
  /-- The keys of the functions that have been begun. -/
  begun : List String := []
  /-- The keys of the functions that are being replayed, the innermost first. -/
  stack : List String := []
  /-- The scope that was served first. -/
  root : Option ScopeId := none

namespace ReplayState

/-- The scope that a function gave when it was called. -/
def answer (s : ReplayState) (key : String) : Option ScopeId := (s.returned.lookup key).join

def apply (s : ReplayState) : Move → ReplayState
  | .make operators => { s with forest := (s.forest.add operators).2 }
  | .link parent child => { s with forest := s.forest.link parent child }
  | .attach id operators => { s with forest := s.forest.attach id operators }
  | .serve id => { s with root := s.root.or (some id) }
  | .enter name => { s with statics := setKey name none s.statics }
  | .leave name scope => { s with statics := setKey name scope s.statics }
  | .begin f _ => { s with
      stack := f.key :: s.stack
      begun := if s.begun.contains f.key then s.begun else f.key :: s.begun }
  | .finish f way scope => { s with
      stack := s.stack.tail
      returned := match way with
        | .called => setKey f.key scope s.returned
        | _ => s.returned }

def after (s : ReplayState) (moves : List Move) : ReplayState := moves.foldl apply s

end ReplayState

/-- Work that makes moves. -/
def Replay (α : Type) : Type := ReplayState → α × List Move

namespace Replay

instance : Monad Replay where
  pure a := fun _ => (a, [])
  bind work f := fun s =>
    let (a, moves) := work s
    let (b, more) := f a (s.after moves)
    (b, moves ++ more)

def state : Replay ReplayState := fun s => (s, [])

def perform (m : Move) : Replay Unit := fun _ => ((), [m])

/-- The parameters of a function that get a scope from these arguments. -/
def bindParams (f : FnDecl) (args : List (Option ScopeId)) : Locals :=
  args.zipIdx.foldl (fun bound (arg, position) =>
    match arg, f.paramName? position with
    | some id, some name => setKey name id bound
    | _, _ => bound) []

/-- How a call with these arguments comes to replay a function. -/
def wayOf (rights : Rights) (f : FnDecl) (args : List (Option ScopeId)) : Way :=
  match if rights.binds then bindParams f args else [] with
  | [] => .called
  | bound => .bound bound

section

variable (jump : Jump → Replay (Option ScopeId))

/-- Carries out a script; what other scripts give is up to the jumps. -/
def script (rights : Rights) {α : Type} : Script α → Replay α
  | .done a => return a
  | .make operators next => do
    let s ← state
    perform (.make operators)
    script rights (next s.forest.size)
  | .link parent child next => do
    perform (.link parent child)
    script rights next
  | .attach id operators next => do
    perform (.attach id operators)
    script rights next
  | .serve id next => do
    if rights.serves then perform (.serve id)
    script rights next
  | .static name next => do
    let scope ← jump (.static name)
    script rights (next scope)
  | .call f args next => do
    let scope ← jump (.function f (wayOf rights f args))
    script rights (next scope)

/-- Replays the body of a function, but for one that is being replayed, and for one that is replayed
only once and has been begun: this one gives the scope of its first call. -/
def function (p : Program) (f : FnDecl) (way : Way) : Replay (Option ScopeId) := do
  let s ← state
  if way.once && s.begun.contains f.key then return s.answer f.key
  else if s.stack.contains f.key then return none
  else
    perform (.begin f way)
    let scope ← script jump way.rights (f.script p way.params)
    perform (.finish f way scope)
    return scope

/-- Replays the value of a static the first time that it is asked for. -/
def static (p : Program) (name : String) : Replay (Option ScopeId) := do
  let s ← state
  match s.statics.lookup name with
  | some known => return known
  | none =>
    match p.statics.find? fun d => d.item.name == name with
    | none => return none
    | some d =>
      perform (.enter name)
      let scope ← script jump {} (d.script p)
      perform (.leave name scope)
      return scope

/-- Jumps one after the other. -/
def inTurn : List Jump → Replay Unit
  | [] => return
  | j :: rest => do
    let _ ← jump j
    inTurn rest

end

/-- Jumps through a number of levels. -/
def jumpWithin (p : Program) : Nat → Jump → Replay (Option ScopeId)
  | 0, _ => return none
  | n + 1, .static name => static (jumpWithin p n) p name
  | n + 1, .function f way => function (jumpWithin p n) p f way

/-- The levels that a program needs at most. -/
def levels (p : Program) : Nat := p.fns.length + p.statics.length

/-- The functions with the names of entry points. -/
def entries (p : Program) (entryPoints : List String) : List FnDecl :=
  p.fns.filter fun f => f.selfType.isNone && entryPoints.contains f.name

/-- The turns of a program: the statics, the entry points, and every other function. -/
def turns (p : Program) (entryPoints : List String) : List Jump :=
  p.statics.map (fun d => .static d.item.name) ++
    (entries p entryPoints).map (.function · .entry) ++ p.fns.map (.function · .remaining)

/-- The moves of a whole program. -/
def moves (p : Program) (entryPoints : List String) : List Move :=
  (inTurn (jumpWithin p (levels p + 1)) (turns p entryPoints) {}).2

end Replay

/-- What is known after a program has been replayed. -/
def ReplayState.ofProgram (p : Program) (entryPoints : List String) : ReplayState :=
  after {} (Replay.moves p entryPoints)

end ServiceContract
