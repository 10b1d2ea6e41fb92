import ServiceContract.Proofs.Constant.Folding
import Mathlib.Data.BitVec

/-! # Constants with types

In the language that is analysed a constant expression has a type. Each type of whole numbers has a
range: a cast into it keeps as many bits as the type has, and arithmetic that leaves it is an error.
Folding knows one range only and looks through casts. So it gives an expression the value of the
language if the expression has one and each cast in it leaves a whole number as it is. A cast that
does anything else is folded to another value.
-/

namespace ServiceContract

open Source

/-- The bits of a type of whole numbers. An address has 64. -/
inductive Width
  | bits8 | bits16 | bits32 | bits64 | bits128 | address
  deriving DecidableEq, Repr

/-- A primitive type of whole numbers. -/
structure IntType where
  signed : Bool
  width : Width
  deriving DecidableEq, Repr

namespace IntType

def bits (τ : IntType) : Nat :=
  match τ.width with
  | .bits8 => 8
  | .bits16 => 16
  | .bits32 => 32
  | .bits64 | .address => 64
  | .bits128 => 128

def name (τ : IntType) : String :=
  (if τ.signed then "i" else "u") ++
    match τ.width with
    | .bits8 => "8"
    | .bits16 => "16"
    | .bits32 => "32"
    | .bits64 => "64"
    | .bits128 => "128"
    | .address => "size"

def u8 : IntType := ⟨false, .bits8⟩

def i32 : IntType := ⟨true, .bits32⟩

def i64 : IntType := ⟨true, .bits64⟩

/-- The numbers of the type. -/
def Fits (τ : IntType) (n : Int) : Prop :=
  if τ.signed then -2 ^ (τ.bits - 1) ≤ n ∧ n < 2 ^ (τ.bits - 1) else 0 ≤ n ∧ n < 2 ^ τ.bits

instance (τ : IntType) (n : Int) : Decidable (τ.Fits n) :=
  inferInstanceAs (Decidable (ite _ (_ ∧ _) (_ ∧ _)))

/-- The type has all the numbers that folding has. -/
def Wide (τ : IntType) : Prop := τ.signed = true ∧ 64 ≤ τ.bits

/-- The number that the last bits of a number stand for. -/
def ofBits (τ : IntType) (n : Int) : Int :=
  if τ.signed then (BitVec.ofInt τ.bits n).toInt else (BitVec.ofInt τ.bits n).toNat

variable {τ : IntType} {n : Int}

theorem bits_pos (τ : IntType) : 0 < τ.bits := by
  unfold bits
  split <;> decide

theorem Wide.fits (h : τ.Wide) (hn : (Constant.int n).Fits) : τ.Fits n := by
  have hpow : 2 ^ 63 ≤ 2 ^ (τ.bits - 1) :=
    Nat.pow_le_pow_right Nat.two_pos (Nat.sub_le_sub_right h.2 1)
  have hpow : (2 : Int) ^ 63 ≤ 2 ^ (τ.bits - 1) := by exact_mod_cast hpow
  rw [IntType.Fits, if_pos h.1]
  obtain ⟨hlow, hhigh⟩ := hn
  constructor <;> omega

theorem fits_ofBits (τ : IntType) (n : Int) : τ.Fits (τ.ofBits n) := by
  unfold Fits ofBits
  split
  · exact ⟨BitVec.le_toInt _, BitVec.toInt_lt⟩
  · exact ⟨Int.natCast_nonneg _, by exact_mod_cast (BitVec.ofInt τ.bits n).isLt⟩

theorem ofBits_of_fits (h : τ.Fits n) : τ.ofBits n = n := by
  unfold Fits at h
  unfold ofBits
  split at h
  · rw [if_pos ‹_›, BitVec.toInt_ofInt_eq_self τ.bits_pos h.1 h.2]
  · rw [if_neg ‹_›, BitVec.toNat_ofInt, Int.emod_eq_of_lt h.1 (by exact_mod_cast h.2),
      Int.toNat_of_nonneg h.1]

theorem ofBits_eq_self_iff : τ.ofBits n = n ↔ τ.Fits n :=
  ⟨fun h => h ▸ τ.fits_ofBits n, ofBits_of_fits⟩

end IntType

/-- The types of constants. -/
inductive ConstType
  | int (τ : IntType)
  | bool
  | char

namespace ConstType

/-- The values of a type. -/
abbrev Value : ConstType → Type
  | int τ => {n : Int // τ.Fits n}
  | bool => Bool
  | char => Char

/-- The number that a cast starts from. -/
def code : (t : ConstType) → t.Value → Int
  | int _, n => n.val
  | bool, b => if b then 1 else 0
  | char, c => c.toNat

/-- The value as a folded constant, where a character is a text. -/
def folded : (t : ConstType) → t.Value → Constant
  | int _, n => .int n.val
  | bool, b => .bool b
  | char, c => .str (String.ofList [c])

/-- A cast leaves the value as it is. -/
def Kept (τ : IntType) : (t : ConstType) → t.Value → Prop
  | int _, n => τ.Fits n.val
  | bool, _ | char, _ => False

end ConstType

namespace IntType

/-- A number that is in the range. -/
def fit (τ : IntType) (n : Int) : Option (ConstType.int τ).Value :=
  if h : τ.Fits n then some ⟨n, h⟩ else none

def cast (τ : IntType) {t : ConstType} (v : t.Value) : (ConstType.int τ).Value :=
  ⟨τ.ofBits (t.code v), τ.fits_ofBits _⟩

theorem fit_eq_some {τ : IntType} {n : Int} {v : (ConstType.int τ).Value} :
    τ.fit n = some v ↔ v.val = n := by
  unfold fit
  split
  · rw [Option.some_inj, Subtype.ext_iff, eq_comm]
  · next h => simpa using fun hv : v.val = n => h (hv ▸ v.property)

theorem fit_of_fits {τ : IntType} {n : Int} (h : τ.Fits n) : τ.fit n = some ⟨n, h⟩ := dif_pos h

/-- A cast is folded to what it starts from exactly if it leaves that as it is. -/
theorem folded_cast_iff {τ : IntType} {t : ConstType} {v : t.Value} :
    (ConstType.int τ).folded (τ.cast v) = t.folded v ↔ t.Kept τ v := by
  cases t with
  | int σ =>
    show Constant.int (τ.ofBits v.val) = .int v.val ↔ τ.Fits v.val
    rw [Constant.int.injEq, ofBits_eq_self_iff]
  | bool | char => exact ⟨Constant.noConfusion, False.elim⟩

end IntType

/-- The operations of arithmetic. -/
def arithmetic : List BinaryOp := [.add, .sub, .mul, .div]

/-- A constant expression with a type. -/
inductive TypedExpr : ConstType → Type
  | int (τ : IntType) (n : Nat) : TypedExpr (.int τ)
  | bool (b : Bool) : TypedExpr .bool
  | char (c : Char) : TypedExpr .char
  | paren {t : ConstType} (e : TypedExpr t) : TypedExpr t
  | cast {t : ConstType} (e : TypedExpr t) (τ : IntType) : TypedExpr (.int τ)
  | neg {τ : IntType} (signed : τ.signed = true) (e : TypedExpr (.int τ)) : TypedExpr (.int τ)
  | not (e : TypedExpr .bool) : TypedExpr .bool
  | binary {τ : IntType} (op : BinaryOp) (known : op ∈ arithmetic) (l r : TypedExpr (.int τ)) :
    TypedExpr (.int τ)
  /-- The constant that a path means, with its own expression. -/
  | const {t : ConstType} (path : Path) (inner : List Expr) (c : ConstDecl) (e : TypedExpr t) :
    TypedExpr t

namespace TypedExpr

/-- The expression as it is written, without the suffixes of numbers. -/
def erase : {t : ConstType} → TypedExpr t → Expr
  | _, int _ n => .lit (.int false n)
  | _, bool b => .lit (.bool b)
  | _, char c => .lit (.char c)
  | _, paren e => .paren e.erase
  | _, cast e τ => .cast e.erase (.path [τ.name] []) []
  | _, neg _ e => .unary .neg e.erase
  | _, not e => .unary .not e.erase
  | _, binary op _ l r => .binary op l.erase r.erase
  | _, const path inner _ _ => .path path inner

/-- The digits of a literal in any number of parentheses. -/
def digits? : {t : ConstType} → TypedExpr t → Option Nat
  | _, int _ n => some n
  | _, paren e => e.digits?
  | _, _ => none

/-- The value that the language gives an expression. A literal has to be in range, with its sign if
it has one, and so has the result of each operation. -/
def value : {t : ConstType} → TypedExpr t → Option t.Value
  | _, int τ n => τ.fit n
  | _, bool b => some b
  | _, char c => some c
  | _, paren e => e.value
  | _, cast e τ => e.value.map τ.cast
  | _, @neg τ _ e =>
    match e.digits? with
    | some n => τ.fit (-n)
    | none => e.value.bind fun n => τ.fit (-n.val)
  | _, not e => e.value.map (!·)
  | _, @binary τ op _ l r =>
    l.value.bind fun a => r.value.bind fun b => (Constant.result? op a.val b.val).bind τ.fit
  | _, const _ _ _ e => e.value

/-- Each path in an expression leads folding to the constant that it means. -/
def Found : {t : ConstType} → Scope → TypedExpr t → Prop
  | _, _, int _ _ | _, _, bool _ | _, _, char _ => True
  | _, s, paren e | _, s, cast e _ | _, s, neg _ e | _, s, not e => e.Found s
  | _, s, binary _ _ l r => l.Found s ∧ r.Found s
  | _, s, const path _ c e => Scope.wellKnown? path.segments = none ∧
    s.constant? path.segments = some c ∧ c.item.value = e.erase ∧ e.Found (s.ofConst c)

/-- Each cast in an expression leaves its value as it is. -/
def CastsKeep : {t : ConstType} → TypedExpr t → Prop
  | _, int _ _ | _, bool _ | _, char _ => True
  | _, paren e | _, neg _ e | _, not e | _, const _ _ _ e => e.CastsKeep
  | _, @cast t e τ => e.CastsKeep ∧ ∃ v, e.value = some v ∧ t.Kept τ v
  | _, binary _ _ l r => l.CastsKeep ∧ r.CastsKeep

/-- All whole numbers in an expression are of types that have the numbers of folding, and casts are
of whole numbers. -/
def Wide : {t : ConstType} → TypedExpr t → Prop
  | _, int τ _ => τ.Wide
  | _, bool _ | _, char _ => True
  | _, paren e | _, not e | _, const _ _ _ e => e.Wide
  | _, @cast t e τ => e.Wide ∧ τ.Wide ∧ ∃ σ, t = .int σ
  | _, @neg τ _ e => e.Wide ∧ τ.Wide
  | _, @binary τ _ _ l r => l.Wide ∧ r.Wide ∧ τ.Wide

variable {s : Scope} {t : ConstType} {e : TypedExpr t} {w : Constant}

/-- A literal in parentheses is folded to its digits. -/
theorem folds_of_digits? {n : Nat} (hn : e.digits? = some n) (h : s.Folds e.erase w) :
    w = .int n := by
  induction e with
  | int τ m =>
    cases hn
    cases h with
    | int hk _ => rw [hk]; rfl
  | paren e ih =>
    cases h with
    | paren h => exact ih hn h
  | bool | char | cast | neg | not | binary | const => cases hn

/-- A path that leads to a constant is folded to what the value of this constant is folded to. -/
theorem folds_of_const {path : Source.Path} {inner : List Source.Expr} {c : ConstDecl}
    {e : TypedExpr t} (found : (const path inner c e).Found s)
    (h : s.Folds (const path inner c e).erase w) : (s.ofConst c).Folds e.erase w := by
  obtain ⟨hwell, hc, hitem, -⟩ := found
  cases h with
  | wellKnown hw => cases hwell.symm.trans hw
  | const _ hc' h =>
    obtain rfl := Option.some.inj (hc.symm.trans hc')
    rwa [hitem] at h

/-- Folding gives the value of the language if no cast changes its value. -/
theorem folded_of_folds (found : e.Found s) (keep : e.CastsKeep) (h : s.Folds e.erase w)
    {v : t.Value} (hv : e.value = some v) : w = t.folded v := by
  induction e generalizing s w with
  | int τ n =>
    cases h with
    | int hk _ =>
      have hn : v.val = n := IntType.fit_eq_some.mp hv
      rw [hk]
      exact congrArg Constant.int hn.symm
  | bool | char =>
    cases h
    cases hv
    rfl
  | paren e ih =>
    cases h with
    | paren h => exact ih found keep h hv
  | cast e τ ih =>
    obtain ⟨keep, a, ha, hkept⟩ := keep
    obtain ⟨_, hb, rfl⟩ := Option.map_eq_some_iff.mp hv
    obtain rfl := Option.some.inj (ha.symm.trans hb)
    cases h with
    | cast h => rw [ih found keep h ha, IntType.folded_cast_iff.mpr hkept]
  | neg signed e ih =>
    cases h with
    | neg h _ =>
      rw [value] at hv
      split at hv
      · next n hn =>
        cases folds_of_digits? hn h
        exact congrArg Constant.int (IntType.fit_eq_some.mp hv).symm
      · obtain ⟨a, ha, hv⟩ := Option.bind_eq_some_iff.mp hv
        cases ih found keep h ha
        exact congrArg Constant.int (IntType.fit_eq_some.mp hv).symm
  | not e ih =>
    obtain ⟨b, hb, rfl⟩ := Option.map_eq_some_iff.mp hv
    cases h with
    | not h =>
      cases ih found keep h hb
      rfl
  | binary op known l r ihl ihr =>
    obtain ⟨a, ha, hv⟩ := Option.bind_eq_some_iff.mp hv
    obtain ⟨b, hb, hv⟩ := Option.bind_eq_some_iff.mp hv
    obtain ⟨k, hk, hv⟩ := Option.bind_eq_some_iff.mp hv
    cases h with
    | binary hl hr hexact _ =>
      cases ihl found.1 keep.1 hl ha
      cases ihr found.2 keep.2 hr hb
      obtain rfl := Option.some.inj (hexact.symm.trans hk)
      exact congrArg Constant.int (IntType.fit_eq_some.mp hv).symm
  | const path inner c e ih =>
    exact ih found.2.2.2 keep (folds_of_const found h) hv

/-- Where types are wide, the language gives each value that folding gives. -/
theorem value_of_folds (found : e.Found s) (wide : e.Wide) (h : s.Folds e.erase w) :
    ∃ v, e.value = some v ∧ w = t.folded v := by
  induction e generalizing s w with
  | int τ n =>
    cases h with
    | int hk hfits =>
      subst hk
      exact ⟨_, IntType.fit_of_fits (wide.fits hfits), rfl⟩
  | bool | char =>
    cases h
    exact ⟨_, rfl, rfl⟩
  | paren e ih =>
    cases h with
    | paren h => exact ih found wide h
  | cast e τ ih =>
    obtain ⟨wide, hτ, σ, rfl⟩ := wide
    cases h with
    | cast h =>
      obtain ⟨v, hv, rfl⟩ := ih found wide h
      refine ⟨τ.cast v, by rw [value, hv]; rfl, (IntType.folded_cast_iff.mpr ?_).symm⟩
      exact hτ.fits h.fits
  | neg signed e ih =>
    cases h with
    | neg h hfits =>
      obtain ⟨v, hv, hw⟩ := ih found wide.1 h
      cases hw
      refine ⟨⟨-v.val, wide.2.fits hfits⟩, ?_, rfl⟩
      rw [value]
      split
      · next n hn =>
        have hdigits : v.val = n := Constant.int.inj (folds_of_digits? hn h)
        rw [← hdigits]
        exact IntType.fit_of_fits _
      · rw [hv]
        exact IntType.fit_of_fits _
  | not e ih =>
    cases h with
    | @not _ _ b h =>
      obtain ⟨v, hv, hw⟩ := ih found wide h
      cases hw
      exact ⟨!b, by rw [value, hv]; rfl, rfl⟩
  | binary op known l r ihl ihr =>
    cases h with
    | binary hl hr hexact hfits =>
      obtain ⟨a, ha, hwa⟩ := ihl found.1 wide.1 hl
      obtain ⟨b, hb, hwb⟩ := ihr found.2 wide.2.1 hr
      cases hwa
      cases hwb
      refine ⟨⟨_, wide.2.2.fits hfits⟩, ?_, rfl⟩
      rw [value, ha, hb]
      exact (congrArg (Option.bind · _) hexact).trans (IntType.fit_of_fits _)
  | const path inner c e ih =>
    exact ih found.2.2.2 wide (folds_of_const found h)

/-- Where types are wide, a value that folding gives is the one of the language. Elsewhere it is
that value if no cast changes a value and the language gives the expression one at all. A cast
whose operand is like that is folded to the value of the language exactly if it leaves the operand
as it is. -/
theorem eval_typed (found : e.Found s) :
    (∀ w, s.eval e.erase = some w → e.Wide → e.value.map t.folded = some w) ∧
    (∀ w, s.eval e.erase = some w → e.CastsKeep →
      (e.value.map t.folded = some w ↔ e.value.isSome)) ∧
    ∀ τ w, s.eval (e.cast τ).erase = some w → e.CastsKeep →
      ((e.cast τ).value.map (ConstType.int τ).folded = some w ↔ (e.cast τ).CastsKeep) := by
  refine ⟨fun w h wide => ?_, fun w h keep => ?_, fun τ w h keep => ?_⟩
  · obtain ⟨v, hv, rfl⟩ := value_of_folds found wide (Scope.folds_of_evalWithin h)
    rw [hv, Option.map_some]
  · have hfolds := Scope.folds_of_evalWithin h
    cases hv : e.value with
    | none => simp
    | some v => simp [folded_of_folds found keep hfolds hv]
  · have hfolds : s.Folds e.erase w := Scope.folds_of_evalWithin (n := 16) h
    show (e.value.map τ.cast).map _ = _ ↔ e.CastsKeep ∧ ∃ v, e.value = some v ∧ t.Kept τ v
    cases hv : e.value with
    | none => simp
    | some v => simp [keep, folded_of_folds found keep hfolds hv, IntType.folded_cast_iff]

/-- A code that is computed from a constant of the program. -/
def code : TypedExpr (.int .i64) :=
  .binary .add (by decide)
    (.binary .mul (by decide)
      (.const { segments := ["BASE"] } [] (Scope.codeConst none "BASE" (Scope.whole 404))
        (.int .i64 404))
      (.int .i64 1000000))
    (.int .i64 1)

/-- A number that a cast cuts off. -/
def cutOff : TypedExpr (.int .u8) := (int .i32 300).cast .u8

/-- The code is folded to its value, and the number is not. -/
theorem eval_typed_codes :
    let s : Scope := ⟨Scope.codes, ["consts"], none⟩
    code.Found s ∧ code.value.map (ConstType.int .i64).folded = some (.int 404000001) ∧
      s.eval cutOff.erase = some (.int 300) ∧
      cutOff.value.map (ConstType.int .u8).folded ≠ some (.int 300) := by
  intro s
  have found : code.Found s := ⟨⟨⟨rfl, rfl, rfl, trivial⟩, trivial⟩, trivial⟩
  have wide : code.Wide := by
    have hi64 : IntType.i64.Wide := ⟨rfl, by decide⟩
    exact ⟨⟨hi64, hi64, hi64⟩, hi64, hi64⟩
  have heval : s.eval cutOff.erase = some (.int 300) := rfl
  refine ⟨found, (eval_typed found).1 _ (by decide) wide, heval, fun h => ?_⟩
  obtain ⟨-, -, cut⟩ := eval_typed (s := s) (e := int .i32 300) trivial
  obtain ⟨-, v, hv, hkept⟩ := (cut .u8 _ heval trivial).mp h
  have hval : v.val = 300 := IntType.fit_eq_some.mp hv
  have hfits : IntType.u8.Fits 300 := hval ▸ hkept
  exact absurd hfits (by decide)

/-- Folding gives a number that has been cut off, the sum of two numbers that overflows, and a
character where the language has its code. -/
theorem eval_narrow :
    let s : Scope := ⟨{}, [], none⟩
    let sum : TypedExpr (.int .u8) := .binary .add (by decide) (int .u8 200) (int .u8 100)
    let letter := (char 'a').cast .u8
    (s.eval cutOff.erase = some (.int 300) ∧
        cutOff.value.map (ConstType.int .u8).folded = some (.int 44)) ∧
      (s.eval sum.erase = some (.int 300) ∧ sum.value = none) ∧
      s.eval letter.erase = some (.str "a") ∧
        letter.value.map (ConstType.int .u8).folded = some (.int 97) := by
  exact ⟨⟨rfl, by decide⟩, ⟨rfl, by decide⟩, rfl, by decide⟩

end TypedExpr

end ServiceContract
