import ServiceContract.Association

/-! # JSON values

Objects keep the order in which their keys were first written; a key written again takes the new
value at its old place. Numbers are whole numbers of 64 bits, signed or unsigned, or doubles,
which are kept as their bits.
-/

namespace ServiceContract

/-- A JSON number. -/
inductive JsonNumber
  | int (value : Int)
  | double (bits : UInt64)
  deriving DecidableEq, Repr

/-- A JSON value. -/
inductive Json
  | null
  | bool (value : Bool)
  | num (value : JsonNumber)
  | str (value : String)
  | arr (items : List Json)
  | obj (fields : List (String × Json))
  deriving Repr

namespace Json

instance : Inhabited Json := ⟨.null⟩

def ofNat (n : Nat) : Json := .num (.int n)

def ofInt (n : Int) : Json := .num (.int n)

mutual

def beq : Json → Json → Bool
  | .null, .null => true
  | .bool a, .bool b => a == b
  | .num a, .num b => a == b
  | .str a, .str b => a == b
  | .arr a, .arr b => beqList a b
  | .obj a, .obj b => beqFields a b
  | _, _ => false

def beqList : List Json → List Json → Bool
  | [], [] => true
  | a :: as, b :: bs => beq a b && beqList as bs
  | _, _ => false

def beqFields : List (String × Json) → List (String × Json) → Bool
  | [], [] => true
  | (k, a) :: as, (l, b) :: bs => k == l && beq a b && beqFields as bs
  | _, _ => false

end

instance : BEq Json := ⟨beq⟩

mutual

theorem beq_iff : ∀ v w : Json, beq v w = true ↔ v = w
  | .null, w => by cases w <;> simp [beq]
  | .bool b, w => by cases w <;> simp [beq]
  | .num x, w => by cases w <;> simp [beq]
  | .str s, w => by cases w <;> simp [beq]
  | .arr vs, w => by cases w <;> simp [beq, beqList_iff vs]
  | .obj fs, w => by cases w <;> simp [beq, beqFields_iff fs]

theorem beqList_iff : ∀ vs ws : List Json, beqList vs ws = true ↔ vs = ws
  | [], ws => by cases ws <;> simp [beqList]
  | v :: vs, ws => by cases ws <;> simp [beqList, beq_iff v, beqList_iff vs]

theorem beqFields_iff : ∀ fs gs : List (String × Json), beqFields fs gs = true ↔ fs = gs
  | [], gs => by cases gs <;> simp [beqFields]
  | (k, v) :: fs, gs => by
    cases gs <;> simp [beqFields, beq_iff v, beqFields_iff fs, Prod.ext_iff]

end

instance : LawfulBEq Json where
  eq_of_beq {v w} := (beq_iff v w).mp
  rfl {v} := (beq_iff v v).mpr rfl

/-- The value of a key of an object. -/
def get? (key : String) : Json → Option Json
  | .obj fields => (fields.find? (·.1 == key)).map (·.2)
  | _ => none

/-- A text, or null when there is none. -/
def ofOption : Option String → Json
  | none => .null
  | some s => .str s

end Json

end ServiceContract
