import ServiceContract.Json.Parser
import ServiceContract.Json.Printer
import Mathlib.Data.List.TakeWhile

/-! # Texts and numbers are read back

A text between quotes is read back one character at a time, each from its escape. How numbers are
written and read is left alone; what matters here is that the reader of a number stops where the
number ends, whatever stands behind it.
-/

namespace ServiceContract.Json

open Text

section Strings

theorem hexDigit?_hexChar : ∀ n < 16, hexDigit? (hexChar n) = some n := by decide

/-- The escape of a control character is read as this character. -/
theorem unicodeEscape_hexChar {c : Char} (h : c.toNat < 32) (rest : List Char) :
    unicodeEscape ('0' :: '0' :: hexChar (c.toNat / 16) :: hexChar (c.toNat % 16) :: rest) =
      some (c, rest) := by
  have hhigh := hexDigit?_hexChar (c.toNat / 16) (by omega)
  have hlow := hexDigit?_hexChar (c.toNat % 16) (by omega)
  have hzero : hexDigit? '0' = some 0 := by decide
  have hc : ((0 * 16 + 0) * 16 + c.toNat / 16) * 16 + c.toNat % 16 = c.toNat := by omega
  have hfour : fourHex ('0' :: '0' :: hexChar (c.toNat / 16) :: hexChar (c.toNat % 16) :: rest) =
      some (c.toNat, rest) := by
    simp only [fourHex, hzero, hhigh, hlow, Option.bind_eq_bind, Option.bind_some, hc]
    rfl
  have hsurrogate : ¬ 0xDC00 ≤ c.toNat ∧ ¬ 0xD800 ≤ c.toNat := by omega
  simp [unicodeEscape, hfour, hsurrogate]

/-- The escape of a character is read as this character. -/
theorem stringBody_escapeChar (n : Nat) (acc : List Char) (c : Char) (rest : List Char) :
    stringBody (n + 1) acc (escapeChar c ++ rest) = stringBody n (c :: acc) rest := by
  have named {k : Nat} (h : c.toNat = k) : Char.ofNat k = c := by rw [← h, Char.ofNat_toNat]
  unfold escapeChar
  split
  · next h => simp [stringBody, beq_iff_eq.mp h]
  split
  · next h => simp [stringBody, beq_iff_eq.mp h]
  split
  · next h => simp [stringBody, ← named (beq_iff_eq.mp h)]
  split
  · next h => simp [stringBody, ← named (beq_iff_eq.mp h)]
  split
  · next h => simp [stringBody, ← named (beq_iff_eq.mp h)]
  split
  · next h => simp [stringBody, ← named (beq_iff_eq.mp h)]
  split
  · next h => simp [stringBody, ← named (beq_iff_eq.mp h)]
  split
  · next h => simp [stringBody, unicodeEscape_hexChar h]
  · next hquote hbackslash _ _ _ _ _ hcontrol =>
    rw [List.singleton_append, stringBody.eq_def]
    dsimp only
    rw [if_neg hquote, if_neg hbackslash, if_neg hcontrol]

theorem length_le_length_escapeChar (c : Char) : 1 ≤ (escapeChar c).length := by
  unfold escapeChar
  split_ifs <;> simp

/-- The characters of a text are read back up to the quote behind them. -/
theorem stringBody_escaped (cs acc rest : List Char) {n : Nat}
    (h : (cs.flatMap escapeChar).length < n) :
    stringBody n acc (cs.flatMap escapeChar ++ '"' :: rest) =
      some (String.ofList (acc.reverse ++ cs), rest) := by
  induction cs generalizing n acc with
  | nil =>
    obtain ⟨n, rfl⟩ := Nat.exists_eq_succ_of_ne_zero (Nat.ne_of_gt (Nat.zero_lt_of_lt h))
    simp [stringBody]
  | cons c cs ih =>
    obtain ⟨n, rfl⟩ := Nat.exists_eq_succ_of_ne_zero (Nat.ne_of_gt (Nat.zero_lt_of_lt h))
    have hc := length_le_length_escapeChar c
    rw [List.flatMap_cons, List.length_append] at h
    rw [List.flatMap_cons, List.append_assoc, stringBody_escapeChar, ih (c :: acc) (by omega)]
    simp

/-- A quoted text in front of others, with its quotes. -/
theorem toList_quoted (s : String) :
    (quoted s).toList = '"' :: (s.toList.flatMap escapeChar ++ ['"']) := by
  simp [quoted]

theorem stringBody_quoted (s : String) (rest : List Char) {n : Nat}
    (h : (s.toList.flatMap escapeChar).length < n) :
    stringBody n [] (s.toList.flatMap escapeChar ++ '"' :: rest) = some (s, rest) := by
  rw [stringBody_escaped _ _ _ h]
  simp

end Strings

/-- What stands behind a value: nothing, the end of a line, or what separates or ends values. -/
def Stops (rest : List Char) : Prop := ∀ c ∈ rest.head?, c ∈ ['\n', ',', ']', '\x7d']

section Numbers

variable {rest cs r : List Char} {x : JsonNumber} {positive : Bool} {significand : Nat} {e : Int}

theorem Stops.head_eq (h : Stops rest) {c : Char} (hc : c ∈ rest.head?) :
    c = '\n' ∨ c = ',' ∨ c = ']' ∨ c = '\x7d' := by
  simpa using h c hc

theorem Stops.not_isDigit (h : Stops rest) : ∀ c ∈ rest.head?, c.isDigit = false := by
  intro c hc
  rcases h.head_eq hc with rfl | rfl | rfl | rfl <;> decide

theorem takeWhile_isDigit_append (h : Stops rest) :
    (cs ++ rest).takeWhile Char.isDigit = cs.takeWhile Char.isDigit := by
  induction cs with
  | nil =>
    cases rest with
    | nil => rfl
    | cons c _ => simp [h.not_isDigit c rfl]
  | cons c cs ih =>
    rw [List.cons_append, List.takeWhile_cons, List.takeWhile_cons, ih]

theorem dropWhile_isDigit_append (h : Stops rest) :
    (cs ++ rest).dropWhile Char.isDigit = cs.dropWhile Char.isDigit ++ rest := by
  induction cs with
  | nil =>
    cases rest with
    | nil => rfl
    | cons c _ => simp [h.not_isDigit c rfl]
  | cons c cs ih =>
    rw [List.cons_append, List.dropWhile_cons, List.dropWhile_cons, ih]
    split <;> rfl

theorem digitRun_append (h : Stops rest) (acc count : Nat) :
    digitRun acc count (cs ++ rest) =
      ((digitRun acc count cs).1, (digitRun acc count cs).2.1,
        (digitRun acc count cs).2.2 ++ rest) := by
  induction cs generalizing acc count with
  | nil =>
    cases rest with
    | nil => rfl
    | cons c _ => simp [digitRun, h.not_isDigit c rfl]
  | cons c cs ih =>
    rw [List.cons_append, digitRun, digitRun]
    split
    · exact ih _ _
    · rfl

theorem exponentDigits_append (cs : List Char) {up : Bool} (h : Stops rest)
    (hx : exponentDigits positive significand e up cs = some (x, r)) :
    exponentDigits positive significand e up (cs ++ rest) = some (x, r ++ rest) := by
  unfold exponentDigits at hx ⊢
  rw [takeWhile_isDigit_append h, dropWhile_isDigit_append h]
  dsimp only at hx ⊢
  cases hv : decimalValue? (cs.takeWhile Char.isDigit) with
  | none => simp [hv] at hx
  | some y =>
    simp only [hv] at hx ⊢
    split
    · next hy =>
      rw [if_pos hy] at hx
      split
      · next hs => simp [hs] at hx
      · next hs =>
        rw [if_neg hs] at hx
        cases hx
        rfl
    · next hy =>
      rw [if_neg hy] at hx
      obtain ⟨z, hz, heq⟩ := Option.map_eq_some_iff.mp hx
      cases heq
      simp [hz]

/-- An exponent is not empty, so that its sign is found before what stands behind it. -/
theorem exponentPart_append (cs : List Char) (h : Stops rest)
    (hx : exponentPart positive significand e cs = some (x, r)) :
    exponentPart positive significand e (cs ++ rest) = some (x, r ++ rest) := by
  have unsigned {c : Char} (hplus : c ≠ '+') (hminus : c ≠ '-') (ds : List Char) :
      exponentPart positive significand e (c :: ds) =
        exponentDigits positive significand e true (c :: ds) := by
    unfold exponentPart
    split <;> simp_all
  cases cs with
  | nil => simp [exponentPart, exponentDigits, decimalValue?] at hx
  | cons c cs =>
    by_cases hplus : c = '+'
    · subst hplus
      exact exponentDigits_append cs h hx
    · by_cases hminus : c = '-'
      · subst hminus
        exact exponentDigits_append cs h hx
      · rw [unsigned hplus hminus] at hx
        rw [List.cons_append, unsigned hplus hminus]
        exact exponentDigits_append (c :: cs) h hx

theorem Stops.head_ne (h : Stops rest) : ∀ c ∈ rest.head?, c ≠ '.' ∧ c ≠ 'e' ∧ c ≠ 'E' := by
  intro c hc
  rcases h.head_eq hc with rfl | rfl | rfl | rfl <;> decide

theorem afterDigits_of_ne (h : ∀ c ∈ cs.head?, c ≠ 'e' ∧ c ≠ 'E') :
    afterDigits positive significand e cs = (double positive significand e).map (·, cs) := by
  unfold afterDigits
  split <;> simp_all

theorem afterWhole_of_ne {cut : Nat} (h : ∀ c ∈ cs.head?, c ≠ '.' ∧ c ≠ 'e' ∧ c ≠ 'E') :
    afterWhole positive significand cut cs = (whole positive significand cut).map (·, cs) := by
  unfold afterWhole
  split <;> simp_all

theorem map_pair_append (cs : List Char) {α : Type} {y : Option α} {z : α}
    (h : y.map (·, cs) = some (z, r)) : y.map (·, cs ++ rest) = some (z, r ++ rest) := by
  obtain ⟨w, rfl, heq⟩ := Option.map_eq_some_iff.mp h
  cases heq
  rfl

/-- What stands behind a number is no exponent of it. -/
theorem afterDigits_append (cs : List Char) (h : Stops rest)
    (hx : afterDigits positive significand e cs = some (x, r)) :
    afterDigits positive significand e (cs ++ rest) = some (x, r ++ rest) := by
  cases cs with
  | nil =>
    rw [afterDigits_of_ne (by simp)] at hx
    rw [List.nil_append, afterDigits_of_ne fun c hc => (h.head_ne c hc).2]
    exact map_pair_append [] hx
  | cons c cs =>
    by_cases hlower : c = 'e'
    · subst hlower
      exact exponentPart_append cs h hx
    · by_cases hupper : c = 'E'
      · subst hupper
        exact exponentPart_append cs h hx
      · rw [afterDigits_of_ne (by simp [hlower, hupper])] at hx ⊢
        exact map_pair_append _ hx

theorem fraction_append (cs : List Char) (h : Stops rest)
    (hx : fraction positive significand e cs = some (x, r)) :
    fraction positive significand e (cs ++ rest) = some (x, r ++ rest) := by
  unfold fraction at hx ⊢
  rw [digitRun_append h]
  generalize digitRun significand 0 cs = run at hx ⊢
  obtain ⟨acc, count, left⟩ := run
  dsimp only at hx ⊢
  cases left with
  | nil =>
    dsimp only at hx
    split at hx
    · cases hx
    · next hcount =>
      have hd := afterDigits_append [] h hx
      rw [List.nil_append] at hd ⊢
      cases rest with
      | nil => simpa [hcount] using hd
      | cons c rest => simpa [hcount, h.not_isDigit c rfl] using hd
  | cons c left =>
    dsimp only at hx
    rw [List.cons_append]
    dsimp only
    rw [← List.cons_append]
    split at hx
    · next hc =>
      rw [if_pos hc, dropWhile_isDigit_append h]
      exact afterDigits_append _ h hx
    · next hc =>
      rw [if_neg hc]
      split at hx
      · cases hx
      · next hcount =>
        rw [if_neg hcount]
        exact afterDigits_append _ h hx

theorem afterWhole_append (cs : List Char) {cut : Nat} (h : Stops rest)
    (hx : afterWhole positive significand cut cs = some (x, r)) :
    afterWhole positive significand cut (cs ++ rest) = some (x, r ++ rest) := by
  cases cs with
  | nil =>
    rw [afterWhole_of_ne (by simp)] at hx
    rw [List.nil_append, afterWhole_of_ne h.head_ne]
    exact map_pair_append [] hx
  | cons c cs =>
    by_cases hpoint : c = '.'
    · subst hpoint
      exact fraction_append cs h hx
    · by_cases hlower : c = 'e'
      · subst hlower
        exact exponentPart_append cs h hx
      · by_cases hupper : c = 'E'
        · subst hupper
          exact exponentPart_append cs h hx
        · rw [afterWhole_of_ne (by simp [hpoint, hlower, hupper])] at hx ⊢
          exact map_pair_append _ hx

/-- The reader of a number stops where the number ends. -/
theorem magnitude_append (h : Stops rest) (hx : magnitude positive cs = some (x, r)) :
    magnitude positive (cs ++ rest) = some (x, r ++ rest) := by
  cases cs with
  | nil => simp [magnitude, digitRun] at hx
  | cons c cs =>
    unfold magnitude at hx ⊢
    rw [digitRun_append h, List.cons_append, List.head?_cons]
    rw [List.head?_cons] at hx
    generalize digitRun 0 0 (c :: cs) = run at hx ⊢
    obtain ⟨acc, count, left⟩ := run
    dsimp only at hx ⊢
    rw [takeWhile_isDigit_append h, dropWhile_isDigit_append h]
    split at hx
    · cases hx
    · next hcount =>
      rw [if_neg hcount]
      split at hx
      · cases hx
      · next hzero =>
        rw [if_neg hzero]
        exact afterWhole_append _ h hx

end Numbers

end ServiceContract.Json
