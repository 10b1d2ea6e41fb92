import ServiceContract.Text.Basic

/-! # Shortest decimals

A double is `m * 2 ^ q`. Its decimal is the shortest digit string that lies in the interval of
the reals that round to it; of several such strings of one length the nearest is taken, and a tie
goes to the even digit. All arithmetic is exact.
-/

namespace ServiceContract.Decimal

/-- A positive decimal `digits * 10 ^ exponent`. -/
structure Scientific where
  digits : Nat
  exponent : Int
  deriving DecidableEq, Repr

/-- The parts of a finite double: sign, `m`, `q`, and whether the gap below it is halved. -/
structure Parts where
  negative : Bool
  m : Nat
  q : Int
  narrow : Bool
  deriving DecidableEq, Repr

def parts (bits : UInt64) : Parts :=
  let n : Nat := bits.toNat
  let e : Nat := n / Nat.pow 2 52 % Nat.pow 2 11
  let f : Nat := n % Nat.pow 2 52
  ⟨n / Nat.pow 2 63 == 1, if e == 0 then f else f + Nat.pow 2 52,
    if e == 0 then -1074 else (e : Int) - 1075, f == 0 && 1 < e⟩

/-- `v * 2 ^ q` compared with `d * 10 ^ k`, as two natural numbers on a common scale. -/
def scaled (v : Nat) (q : Int) (d : Nat) (k : Int) : Nat × Nat :=
  (v * Nat.pow 2 q.toNat * Nat.pow 10 (-k).toNat, d * Nat.pow 10 k.toNat * Nat.pow 2 (-q).toNat)

/-- The exponent of the leading digit of the positive number `v * 2 ^ q`. -/
def leading (v : Nat) (q : Int) : Int :=
  let num := v * Nat.pow 2 q.toNat
  let den := Nat.pow 2 (-q).toNat
  if den ≤ num then (Nat.toDigits 10 (num / den)).length - 1
  else
    let l := (Nat.toDigits 10 (den / num)).length
    if num * Nat.pow 10 (l - 1) ≥ den then 1 - l else -l

/-- Removes trailing zeros from a digit string. -/
def normalize : Nat → Nat → Int → Scientific
  | 0, d, k => ⟨d, k⟩
  | n + 1, d, k => if d % 10 == 0 && d != 0 then normalize n (d / 10) (k + 1) else ⟨d, k⟩

/-- The shortest decimal of the positive double with the given parts, tried with `n` more
digits than `17 - fuel`. -/
def search (p : Parts) : Nat → Scientific
  | 0 => normalize 20 p.m p.q
  | fuel + 1 =>
    let n : Nat := 17 - fuel
    let v := 4 * p.m
    let q := p.q - 2
    let lo := if p.narrow then v - 1 else v - 2
    let hi := v + 2
    let even := p.m % 2 == 0
    let k := leading v q - n + 1
    let d :=
      let (a, b) := scaled v q 1 k
      a / b
    let inside (x : Nat) : Bool :=
      let (l, xl) := scaled lo q x k
      let (h, xh) := scaled hi q x k
      (if even then l ≤ xl else l < xl) && (if even then xh ≤ h else xh < h)
    let below := inside d
    let above := inside (d + 1)
    if below && above then
      let (a, b) := scaled v q (2 * d + 1) k
      let pick :=
        if 2 * a < b then d
        else if b < 2 * a then d + 1
        else if d % 2 == 0 then d
        else d + 1
      normalize 20 pick k
    else if below then normalize 20 d k
    else if above then normalize 20 (d + 1) k
    else search p fuel

/-- The shortest decimal of a positive double. -/
def shortest (p : Parts) : Scientific := search p 17

/-- How a decimal is written. -/
structure Style where
  /-- Positional notation is used for leading exponents from `least` up to `most`. -/
  least : Int
  most : Int
  /-- Text that follows a whole number in positional notation. -/
  wholeTail : String
  /-- Text between the mark and the digits of a positive exponent. -/
  plus : String
  infinity : String
  notANumber : String

def digitsText (d : Nat) : List Char := Nat.toDigits 10 d

/-- Writes a positive decimal. -/
def Style.decimal (st : Style) (x : Scientific) : String :=
  let ds := digitsText x.digits
  let point : Int := ds.length + x.exponent
  if st.least ≤ point - 1 && point - 1 ≤ st.most then
    if 0 ≤ x.exponent then
      String.ofList (ds ++ List.replicate x.exponent.toNat '0') ++ st.wholeTail
    else if 0 < point then
      String.ofList (ds.take point.toNat ++ '.' :: ds.drop point.toNat)
    else
      String.ofList ('0' :: '.' :: List.replicate (-point).toNat '0' ++ ds)
  else
    let head := match ds with
      | [d] => String.ofList [d]
      | d :: rest => String.ofList (d :: '.' :: rest)
      | [] => ""
    head ++ "e" ++ (if 0 < point - 1 then st.plus else "") ++ Text.integer (point - 1)

/-- Writes a double given by its bits. -/
def Style.write (st : Style) (bits : UInt64) : String :=
  let n := bits.toNat % Nat.pow 2 63
  let sign := if bits.toNat / Nat.pow 2 63 == 1 then "-" else ""
  if n == 0 then sign ++ "0" ++ st.wholeTail
  else if n == 2047 * Nat.pow 2 52 then sign ++ st.infinity
  else if 2047 * Nat.pow 2 52 < n then st.notANumber
  else sign ++ st.decimal (shortest (parts bits))

end ServiceContract.Decimal
