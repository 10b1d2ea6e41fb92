import ServiceContract.Text.Basic

/-! # Type expressions

The shape of a type as it is written: a named type with the generic arguments of its last
segment, references, slices, arrays, tuples. Trait objects are `dynamic`; what has no name and no
structure the analysis needs is `unknown`.
-/

namespace ServiceContract

/-- The shape of a written type. -/
inductive TypeExpr
  | path (segments : List String) (args : List TypeExpr)
  | ref (target : TypeExpr)
  | slice (item : TypeExpr)
  | array (item : TypeExpr) (length : Option Nat)
  | tuple (items : List TypeExpr)
  | dynamic
  | unknown
  deriving Repr, Inhabited

/-- A named type: its path and the generic arguments of the last segment. -/
structure TypePath where
  segments : List String
  args : List TypeExpr := []
  deriving Repr, Inhabited

namespace TypeExpr

mutual

def beq : TypeExpr → TypeExpr → Bool
  | .path s as, .path t bs => s == t && beqList as bs
  | .ref a, .ref b => beq a b
  | .slice a, .slice b => beq a b
  | .array a m, .array b n => beq a b && m == n
  | .tuple as, .tuple bs => beqList as bs
  | .dynamic, .dynamic => true
  | .unknown, .unknown => true
  | _, _ => false

def beqList : List TypeExpr → List TypeExpr → Bool
  | [], [] => true
  | a :: as, b :: bs => beq a b && beqList as bs
  | _, _ => false

end

mutual

theorem eq_of_beq (a b : TypeExpr) (h : beq a b = true) : a = b := by
  cases a <;> cases b <;> simp [beq] at h <;> try rfl
  case path.path s as t bs => rw [h.1, eq_of_beqList as bs h.2]
  case ref.ref a b => rw [eq_of_beq a b h]
  case slice.slice a b => rw [eq_of_beq a b h]
  case array.array a m b n => rw [eq_of_beq a b h.1, h.2]
  case tuple.tuple as bs => rw [eq_of_beqList as bs h]

theorem eq_of_beqList (as bs : List TypeExpr) (h : beqList as bs = true) : as = bs := by
  cases as <;> cases bs <;> simp [beqList] at h
  case nil.nil => rfl
  case cons.cons a as b bs => rw [eq_of_beq a b h.1, eq_of_beqList as bs h.2]

end

mutual

theorem beq_self (a : TypeExpr) : beq a a = true := by
  cases a <;> simp [beq]
  case path s as => exact beqList_self as
  case ref a => exact beq_self a
  case slice a => exact beq_self a
  case array a n => exact beq_self a
  case tuple as => exact beqList_self as

theorem beqList_self (as : List TypeExpr) : beqList as as = true := by
  cases as <;> simp [beqList]
  case cons a as => exact ⟨beq_self a, beqList_self as⟩

end

instance : DecidableEq TypeExpr := fun a b =>
  if h : beq a b = true then isTrue (eq_of_beq a b h)
  else isFalse fun e => h (e ▸ beq_self a)

/-- A named type without arguments, its path split at `::`. -/
def named (name : String) : TypeExpr := .path (Text.splitOnWord "::" name) []

def unit : TypeExpr := .tuple []

def isUnit : TypeExpr → Bool
  | .tuple [] => true
  | _ => false

def asPath? : TypeExpr → Option TypePath
  | .path segments args => some ⟨segments, args⟩
  | _ => none

mutual

/-- The text of a type. -/
def text : TypeExpr → String
  | .path segments [] => Text.join "::" segments
  | .path segments (a :: as) =>
    Text.join "::" segments ++ "<" ++ Text.join ", " (a.text :: texts as) ++ ">"
  | .ref t => "&" ++ t.text
  | .slice t => "[" ++ t.text ++ "]"
  | .array t (some n) => "[" ++ t.text ++ "; " ++ Text.decimal n ++ "]"
  | .array t none => "[" ++ t.text ++ "; _]"
  | .tuple ts => "(" ++ Text.join ", " (texts ts) ++ ")"
  | .dynamic => "dyn _"
  | .unknown => "_"

def texts : List TypeExpr → List String
  | [] => []
  | t :: ts => t.text :: texts ts

end

/-- The last segment of a named type. -/
def name? : TypeExpr → Option String
  | .path segments _ => some (segments.getLast?.getD "")
  | _ => none

/-- The first generic argument of a type named `wrapper`. -/
def unwrap? (wrapper : String) (t : TypeExpr) : Option TypeExpr :=
  match t with
  | .path _ (a :: _) => if t.name? == some wrapper then some a else none
  | _ => none

/-- Types that only wrap their first argument. -/
def wrappers : List String := ["Box", "Rc", "Arc", "Option", "Cow"]

/-- The type behind references and wrappers. -/
def peel : TypeExpr → TypeExpr
  | .ref t => t.peel
  | .path segments (a :: as) =>
    if wrappers.contains (segments.getLast?.getD "") then a.peel else .path segments (a :: as)
  | t => t

end TypeExpr

namespace TypePath

def toType (p : TypePath) : TypeExpr := .path p.segments p.args

/-- A path without arguments, split at `::`. -/
def named (name : String) : TypePath := ⟨Text.splitOnWord "::" name, []⟩

/-- The name the type is declared under. -/
def name (p : TypePath) : String := p.segments.getLast?.getD ""

def text (p : TypePath) : String := p.toType.text

end TypePath

/-- Path segments that name no module of their own. -/
def pathRoots : List String := ["crate", "self", "super"]

/-- The segments before the last one that narrow a lookup. -/
def TypePath.qualifier (p : TypePath) : List String :=
  p.segments.dropLast.filter fun s => !pathRoots.contains s

end ServiceContract
