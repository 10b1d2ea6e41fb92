/-! # Text

Splitting and trimming of text, on lists of characters and on strings. A piece is what stands
between two separators, so `n` separators make `n + 1` pieces.
-/

namespace ServiceContract.Text

/-- The pieces between the characters that satisfy `p`. -/
def pieces (p : Char → Bool) : List Char → List (List Char)
  | [] => [[]]
  | c :: cs =>
    match pieces p cs with
    | [] => [[]]
    | w :: ws => if p c then [] :: w :: ws else (c :: w) :: ws

/-- The pieces of a string between occurrences of one character. -/
def splitOn (sep : Char) (s : String) : List String :=
  (pieces (· == sep) s.toList).map String.ofList

/-- The rest of `s` after a leading `w`. -/
def dropPrefix? : List Char → List Char → Option (List Char)
  | [], s => some s
  | _ :: _, [] => none
  | c :: w, d :: s => if c = d then dropPrefix? w s else none

/-- The rest of the string `s` after a leading `w`. -/
def stripPrefix? (w s : String) : Option String :=
  (dropPrefix? w.toList s.toList).map String.ofList

/-- Removes `w` from the front as often as it stands there. -/
def trimStartMatches (w : String) (s : String) : String :=
  go s.toList.length s.toList
where
  go : Nat → List Char → String
    | 0, cs => String.ofList cs
    | n + 1, cs =>
      match dropPrefix? w.toList cs with
      | some rest => if w.isEmpty then String.ofList cs else go n rest
      | none => String.ofList cs

/-- Removes `w` from the end as often as it stands there. -/
def trimEndMatches (w : String) (s : String) : String :=
  String.ofList (trimStartMatches (String.ofList w.toList.reverse)
    (String.ofList s.toList.reverse)).toList.reverse

/-- Splits at the first occurrence of `w`. -/
def splitFirst (w : List Char) : List Char → Option (List Char × List Char)
  | [] => if w.isEmpty then some ([], []) else none
  | c :: cs =>
    match dropPrefix? w (c :: cs) with
    | some rest => some ([], rest)
    | none => (splitFirst w cs).map fun (a, b) => (c :: a, b)

/-- The pieces between occurrences of the word `w`. -/
def splitOnWord (w : String) (s : String) : List String :=
  go (s.length + 1) s.toList
where
  go : Nat → List Char → List String
    | 0, cs => [String.ofList cs]
    | n + 1, cs =>
      match splitFirst w.toList cs with
      | some (a, b) => if w.isEmpty then [String.ofList cs] else String.ofList a :: go n b
      | none => [String.ofList cs]

/-- Drops the characters that satisfy `p` from the end. -/
def dropEndWhile (p : Char → Bool) (cs : List Char) : List Char :=
  (cs.reverse.dropWhile p).reverse

/-- Drops the characters that satisfy `p` from both ends. -/
def dropBothWhile (p : Char → Bool) (cs : List Char) : List Char :=
  dropEndWhile p (cs.dropWhile p)

/-- The lines of a text, each without its line feed and a carriage return before that; an empty
last line is no line. -/
def lines (s : String) : List String :=
  go (pieces (· == '\n') s.toList)
where
  go : List (List Char) → List String
    | [] => []
    | [last] => if last.isEmpty then [] else [String.ofList last]
    | l :: ls => String.ofList (if l.getLast? == some '\r' then l.dropLast else l) :: go ls

/-- Joins texts with a separator between neighbours. -/
def join (sep : String) (parts : List String) : String :=
  String.intercalate sep parts

/-- The text of parts with a separator between neighbours is the one of the first part and then
each of the others after a separator. -/
theorem toList_join_cons (sep s : String) (parts : List String) :
    (join sep (s :: parts)).toList =
      s.toList ++ parts.flatMap fun part => sep.toList ++ part.toList := by
  unfold join
  induction parts generalizing s with
  | nil => simp
  | cons part parts ih =>
    rw [String.intercalate_cons_cons, String.toList_append, String.toList_append, ih]
    simp

/-- The hexadecimal value of a digit. -/
def hexDigit? (c : Char) : Option Nat :=
  if '0' ≤ c && c ≤ '9' then some (c.toNat - 48)
  else if 'a' ≤ c && c ≤ 'f' then some (c.toNat - 87)
  else if 'A' ≤ c && c ≤ 'F' then some (c.toNat - 55)
  else none

/-- The value of a text of hexadecimal digits, other characters ignored. -/
def hexValue (cs : List Char) : Nat :=
  cs.foldl (fun n c => match hexDigit? c with | some d => 16 * n + d | none => n) 0

/-- The lowercase hexadecimal digit of a value below sixteen. -/
def hexChar (n : Nat) : Char :=
  if n < 10 then Char.ofNat (48 + n) else Char.ofNat (87 + n)

/-- The decimal digits of a natural number. -/
def decimal (n : Nat) : String :=
  String.ofList (Nat.toDigits 10 n)

/-- The decimal text of an integer. -/
def integer (i : Int) : String :=
  match i with
  | .ofNat n => decimal n
  | .negSucc n => "-" ++ decimal (n + 1)

/-- The value of a nonempty text of decimal digits. -/
def decimalValue? (cs : List Char) : Option Nat :=
  if cs.isEmpty || cs.any (fun c => !c.isDigit) then none
  else some (cs.foldl (fun n c => 10 * n + (c.toNat - 48)) 0)

end ServiceContract.Text
