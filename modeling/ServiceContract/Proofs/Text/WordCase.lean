import Mathlib
import ServiceContract.Program.Attribute
import ServiceContract.Proofs.Text.Pieces

/-! # Names of variants

A serializer writes the name of a variant letter by letter: a separator stands before each capital
but the first. Here the name is cut into words instead, and a run of capitals is one word but for
the last of them if a lowercase letter follows. Both give the same name exactly if no capital is
inside a word, except in the two styles that have no words.
-/

namespace ServiceContract.WordCase

open Unicode

/-- The styles that variants are serialized in. -/
inductive Style
  | lower
  | upper
  | pascal
  | camel
  | snake
  | shoutySnake
  | kebab
  | shoutyKebab
  deriving DecidableEq, Repr

/-- A character, after a separator if it is a capital. -/
def marked (sep c : Char) : List Char := if c.isUpper then [sep, c] else [c]

/-- Puts a separator before every capital but a first one. -/
def spaced (sep : Char) : List Char → List Char
  | [] => []
  | c :: cs => c :: cs.flatMap (marked sep)

namespace Style

/-- The name of the rule that asks for a style. -/
def rule : Style → String
  | lower => "lowercase"
  | upper => "UPPERCASE"
  | pascal => "PascalCase"
  | camel => "camelCase"
  | snake => "snake_case"
  | shoutySnake => "SCREAMING_SNAKE_CASE"
  | kebab => "kebab-case"
  | shoutyKebab => "SCREAMING-KEBAB-CASE"

/-- How a serializer writes the name of a variant in a style. -/
def write : Style → List Char → List Char
  | lower, cs => cs.map Char.toLower
  | upper, cs => cs.map Char.toUpper
  | pascal, cs => cs
  | camel, [] => []
  | camel, c :: cs => c.toLower :: cs
  | snake, cs => (spaced '_' cs).map Char.toLower
  | shoutySnake, cs => ((spaced '_' cs).map Char.toLower).map Char.toUpper
  | kebab, cs => (spaced '-' cs).map Char.toLower
  | shoutyKebab, cs => ((spaced '-' cs).map Char.toLower).map Char.toUpper

end Style

/-- A name of letters and digits that begins with a capital. -/
def isPascal (ident : String) : Bool :=
  ident.toList.head?.any Char.isUpper && ident.toList.all Char.isAlphanum

/-- Every capital but a first one comes after a lowercase letter, digits between them not counted,
or else right before one. -/
def Apart (cs : List Char) : Prop :=
  ∀ before c after, cs = before ++ c :: after → before ≠ [] → c.isUpper = true →
    (before.filter Char.isAlpha).getLast?.any Char.isLower = true ∨
      after.head?.any Char.isLower = true

section Ascii

variable {c : Char} {cs w : List Char}

theorem isAscii_of_isAlphanum (h : c.isAlphanum = true) : isAscii c = true := by
  simp only [Char.isAlphanum, Char.isAlpha, Char.isUpper, Char.isLower, Char.isDigit,
    UInt32.le_iff_toNat_le, Bool.or_eq_true, Bool.and_eq_true, decide_eq_true_eq] at h
  have hnat : c.toNat = c.val.toNat := rfl
  simp only [isAscii, decide_eq_true_eq, hnat]
  simp at h
  omega

theorem isLowercase_eq (h : c.isAlphanum = true) : isLowercase c = c.isLower :=
  if_pos (isAscii_of_isAlphanum h)

theorem isUppercase_eq (h : c.isAlphanum = true) : isUppercase c = c.isUpper :=
  if_pos (isAscii_of_isAlphanum h)

theorem upper_eq (h : c.isAlphanum = true) : upper c = [c.toUpper] :=
  if_pos (isAscii_of_isAlphanum h)

theorem lower_eq (h : c.isAlphanum = true) : lower c = [c.toLower] :=
  if_pos (isAscii_of_isAlphanum h)

theorem ne_sigma (h : c.isAlphanum = true) : (c == 'Σ') = false := by
  refine beq_false_of_ne ?_
  rintro rfl
  exact absurd h (by decide)

theorem lowerFrom_eq (before : List Char) (h : ∀ c ∈ cs, c.isAlphanum = true) :
    lowerFrom before cs = cs.map Char.toLower := by
  induction cs generalizing before with
  | nil => rfl
  | cons c cs ih =>
    obtain ⟨hc, hcs⟩ := List.forall_mem_cons.mp h
    rw [lowerFrom, ih _ hcs, ne_sigma hc, lower_eq hc]
    rfl

theorem lowerWord_eq (h : ∀ c ∈ w, c.isAlphanum = true) : lowerWord w = w.map Char.toLower := by
  induction w with
  | nil => rfl
  | cons c w ih =>
    obtain ⟨hc, hw⟩ := List.forall_mem_cons.mp h
    cases w with
    | nil => simp [lowerWord, ne_sigma hc, lower_eq hc]
    | cons d w =>
      change lower c ++ lowerWord (d :: w) = _
      rw [ih hw, lower_eq hc]
      rfl

theorem flatMap_upper_eq (h : ∀ c ∈ w, c.isAlphanum = true) :
    w.flatMap upper = w.map Char.toUpper := by
  induction w with
  | nil => rfl
  | cons c w ih =>
    obtain ⟨hc, hw⟩ := List.forall_mem_cons.mp h
    rw [List.flatMap_cons, ih hw, upper_eq hc]
    rfl

end Ascii

section Words

variable {c d : Char} {cs word : List Char} {mode : Mode}

/-- The case of the last letter, after one more character. -/
def Mode.next (mode : Mode) (c : Char) : Mode :=
  if c.isLower then .lower else if c.isUpper then .upper else mode

theorem wordsOfRun_cons_cons (hc : c.isAlphanum = true) (hd : d.isAlphanum = true) :
    wordsOfRun word mode (c :: d :: cs) =
      if mode.next c = .lower && d.isUpper then
        (c :: word).reverse :: wordsOfRun [] .none (d :: cs)
      else if mode = .upper && c.isUpper && d.isLower then
        word.reverse :: wordsOfRun [c] .none (d :: cs)
      else wordsOfRun (c :: word) (mode.next c) (d :: cs) := by
  rw [wordsOfRun]
  simp only [isLowercase_eq hc, isLowercase_eq hd, isUppercase_eq hc, isUppercase_eq hd]
  rfl

theorem Mode.next_of_lower (h : c.isLower = true) : mode.next c = .lower := if_pos h

theorem Mode.next_of_upper (h : c.isUpper = true) : mode.next c = .upper := by
  rw [next, if_neg (Char.not_isLower_of_isUpper h), if_pos h]

theorem Mode.next_eq_none : mode.next c = .none ↔ mode = .none ∧ c.isAlpha = false := by
  unfold Mode.next Char.isAlpha
  cases c.isLower <;> cases c.isUpper <;> simp

/-- The number of capitals that begin no word, where a letter of the given case stands before. -/
def hidden : Mode → List Char → Nat
  | _, [] => 0
  | mode, c :: cs =>
    (if c.isUpper && mode ≠ .lower && !cs.head?.any Char.isLower then 1 else 0) +
      hidden (mode.next c) cs

/-- Behind the first character a capital begins a word or is hidden. Whether the first one begins a
second word is told by the character after it. -/
theorem length_wordsOfRun (h : ∀ d ∈ c :: cs, d.isAlphanum = true)
    (hletter : mode = .none → c.isAlpha = true) :
    (wordsOfRun word mode (c :: cs)).length + hidden (mode.next c) cs =
      cs.countP Char.isUpper + 1 +
        if mode = .upper && c.isUpper && cs.head?.any Char.isLower then 1 else 0 := by
  induction cs generalizing word mode c with
  | nil => simp [wordsOfRun, hidden]
  | cons d cs ih =>
    obtain ⟨hc, hcs⟩ := List.forall_mem_cons.mp h
    have hd := (List.forall_mem_cons.mp hcs).1
    have hnext : mode.next c ≠ .none := fun hn => by
      obtain ⟨hmode, halpha⟩ := Mode.next_eq_none.mp hn
      simp [hletter hmode] at halpha
    rw [wordsOfRun_cons_cons hc hd, hidden, List.countP_cons]
    split
    -- a capital after a lowercase letter begins the next word
    · next hbegins =>
      obtain ⟨hmode, hupper⟩ : mode.next c = .lower ∧ d.isUpper = true := by simpa using hbegins
      have hlower : d.isLower = false := by simpa using Char.not_isLower_of_isUpper hupper
      have hrest := @ih d [] .none hcs fun _ => by simp [Char.isAlpha, hupper]
      rw [Mode.next_of_upper hupper] at hrest
      rw [hmode, Mode.next_of_upper hupper]
      simp [hupper, hlower] at hrest ⊢
      omega
    · split
      -- the last one of a run of capitals begins the next word
      · next hlast =>
        obtain ⟨⟨hmode, hupper⟩, hlower⟩ :
            (mode = .upper ∧ c.isUpper = true) ∧ d.isLower = true := by simpa using hlast
        have hcapital : d.isUpper = false := by simpa using Char.not_isUpper_of_isLower hlower
        have hrest := @ih d [c] .none hcs fun _ => by simp [Char.isAlpha, hlower]
        rw [Mode.next_of_lower hlower] at hrest
        rw [Mode.next_of_lower hlower]
        simp [hmode, hupper, hlower, hcapital] at hrest ⊢
        omega
      -- the word goes on, and a capital is hidden unless it is the last one of a run
      · next hstays hgoes =>
        have hrest := @ih d (c :: word) (mode.next c) hcs fun hn => absurd hn hnext
        rw [List.head?_cons, Option.any_some, if_neg hgoes]
        cases hupper : d.isUpper with
        | false =>
          simp [hupper] at hrest ⊢
          omega
        | true =>
          have hmode : mode.next c = .upper := by
            cases hm : mode.next c with
            | none => exact absurd hm hnext
            | lower => simp [hm, hupper] at hstays
            | upper => rfl
          rw [hmode] at hrest ⊢
          cases hnear : cs.head?.any Char.isLower <;> simp [hupper, hnear] at hrest ⊢ <;> omega

theorem foldl_next_eq_lower_iff (before : List Char) :
    (c :: before).foldl Mode.next .none = .lower ↔
      ((c :: before).filter Char.isAlpha).getLast?.any Char.isLower = true := by
  generalize c :: before = cs
  induction cs using List.reverseRecOn with
  | nil => simp
  | append_singleton cs d ih =>
    rw [List.foldl_append, List.foldl_cons, List.foldl_nil, List.filter_append]
    unfold Mode.next Char.isAlpha at *
    cases hl : d.isLower <;> cases hu : d.isUpper <;> simp [hl, hu, ih]

theorem hidden_eq_zero_iff : hidden mode cs = 0 ↔
    ∀ before c after, cs = before ++ c :: after → c.isUpper = true →
      before.foldl Mode.next mode = .lower ∨ after.head?.any Char.isLower = true := by
  induction cs generalizing mode with
  | nil => simp [hidden]
  | cons d cs ih =>
    rw [hidden, Nat.add_eq_zero_iff, ih]
    constructor
    · rintro ⟨hd, hcs⟩ before c after heq hupper
      cases before with
      | nil =>
        cases heq
        by_contra hneither
        simp_all
      | cons b before =>
        obtain ⟨rfl, rfl⟩ := List.cons.inj heq
        exact hcs before c after rfl hupper
    · intro h
      refine ⟨?_, fun before c after heq hupper => ?_⟩
      · have hd := h [] d cs rfl
        by_contra hhidden
        simp_all
      · exact h (d :: before) c after (congrArg (d :: ·) heq) hupper

/-- No capital but a first one is hidden exactly if all are apart. -/
theorem hidden_eq_zero_iff_apart (hc : c.isUpper = true) :
    hidden .upper cs = 0 ↔ Apart (c :: cs) := by
  rw [hidden_eq_zero_iff]
  have hmode (before : List Char) : before.foldl Mode.next .upper =
      (c :: before).foldl Mode.next .none := by
    rw [List.foldl_cons, Mode.next_of_upper hc]
  simp only [hmode, foldl_next_eq_lower_iff]
  constructor
  · intro h before d after heq hne hupper
    obtain ⟨b, before, rfl⟩ := List.exists_cons_of_ne_nil hne
    obtain ⟨rfl, htail⟩ := List.cons.inj heq
    exact h before d after htail hupper
  · intro h before d after heq hupper
    exact h (c :: before) d after (congrArg (c :: ·) heq) (List.cons_ne_nil _ _) hupper

theorem flatten_wordsOfRun (hne : cs ≠ []) :
    (wordsOfRun word mode cs).flatten = word.reverse ++ cs := by
  fun_induction wordsOfRun word mode cs with
  | case1 => exact absurd rfl hne
  | case2 => simp
  | case3 word mode c d cs next _ ih => simp [ih]
  | case4 word mode c d cs next _ _ ih => simp [ih]
  | case5 word mode c d cs next _ _ ih => simp [ih]

/-- A word begins with a capital. -/
def Begins (w : List Char) : Prop := ∃ c r, w = c :: r ∧ c.isUpper = true

theorem Begins.append {w : List Char} (h : Begins w) (r : List Char) : Begins (w ++ r) := by
  obtain ⟨c, w, rfl, hc⟩ := h
  exact ⟨c, w ++ r, rfl, hc⟩

theorem Begins.of_append {w r : List Char} (h : Begins (w ++ r)) (hne : w ≠ []) : Begins w := by
  obtain ⟨c, w, rfl⟩ := List.exists_cons_of_ne_nil hne
  obtain ⟨d, rest, heq, hd⟩ := h
  exact ⟨c, w, rfl, (List.cons.inj heq).1 ▸ hd⟩

theorem begins_of_mem_wordsOfRun (h : ∀ d ∈ c :: cs, d.isAlphanum = true)
    (hfirst : Begins (word.reverse ++ [c])) (hmode : mode = .upper → word ≠ []) :
    ∀ w ∈ wordsOfRun word mode (c :: cs), Begins w := by
  induction cs generalizing word mode c with
  | nil => simpa [wordsOfRun] using hfirst
  | cons d cs ih =>
    obtain ⟨hc, hcs⟩ := List.forall_mem_cons.mp h
    rw [wordsOfRun_cons_cons hc (List.forall_mem_cons.mp hcs).1]
    split
    · next hbegins =>
      obtain ⟨-, hupper⟩ := Bool.and_eq_true_iff.mp hbegins
      rw [List.reverse_cons, List.forall_mem_cons]
      exact ⟨hfirst, ih hcs ⟨d, [], rfl, hupper⟩ nofun⟩
    · split
      · next hlast =>
        obtain ⟨⟨hm, hupper⟩, -⟩ :
            (mode = .upper ∧ c.isUpper = true) ∧ d.isLower = true := by simpa using hlast
        have hne : word.reverse ≠ [] := List.reverse_ne_nil_iff.mpr (hmode hm)
        rw [List.forall_mem_cons]
        exact ⟨hfirst.of_append hne, ih hcs ⟨c, [d], rfl, hupper⟩ nofun⟩
      · refine ih hcs ?_ fun _ => List.cons_ne_nil _ _
        rw [List.reverse_cons]
        exact hfirst.append [d]

end Words

section Writing

variable {c sep : Char} {r : List Char} {ws : List (List Char)} {g : Char → Char}

theorem countP_flatten_cons (hc : c.isUpper = true) : ((c :: r) :: ws).flatten.countP Char.isUpper =
    r.countP Char.isUpper + 1 + ws.flatten.countP Char.isUpper := by
  rw [List.flatten_cons, List.countP_append, List.countP_cons_of_pos hc]

theorem length_le_countP (h : ∀ w ∈ ws, Begins w) :
    ws.length ≤ ws.flatten.countP Char.isUpper := by
  induction ws with
  | nil => simp
  | cons w ws ih =>
    obtain ⟨⟨c, r, rfl, hc⟩, hws⟩ := List.forall_mem_cons.mp h
    have hle := ih hws
    rw [countP_flatten_cons hc, List.length_cons]
    omega

/-- There are as many words as capitals exactly if no capital is inside a word. -/
theorem length_eq_countP_iff (h : ∀ w ∈ ws, Begins w) :
    ws.length = ws.flatten.countP Char.isUpper ↔ ∀ w ∈ ws, ∀ d ∈ w.tail, d.isUpper = false := by
  induction ws with
  | nil => simp
  | cons w ws ih =>
    obtain ⟨⟨c, r, rfl, hc⟩, hws⟩ := List.forall_mem_cons.mp h
    have hle := length_le_countP hws
    have htail : (∀ d ∈ r, d.isUpper = false) ↔ r.countP Char.isUpper = 0 := by
      simp [List.countP_eq_zero]
    rw [List.forall_mem_cons, List.tail_cons, htail, ← ih hws, countP_flatten_cons hc,
      List.length_cons]
    omega

theorem flatMap_marked_of_not_upper (h : ∀ d ∈ r, d.isUpper = false) :
    r.flatMap (marked sep) = r := by
  induction r with
  | nil => rfl
  | cons d r ih =>
    obtain ⟨hd, hr⟩ := List.forall_mem_cons.mp h
    rw [List.flatMap_cons, ih hr, marked, hd]
    rfl

theorem length_flatMap_marked :
    (r.flatMap (marked sep)).length = r.length + r.countP Char.isUpper := by
  induction r with
  | nil => rfl
  | cons d r ih =>
    rw [List.flatMap_cons, List.length_append, ih, List.length_cons, List.countP_cons, marked]
    cases d.isUpper <;> simp <;> omega

theorem length_flatMap_cons :
    (ws.flatMap fun w => sep :: w).length = ws.flatten.length + ws.length := by
  induction ws with
  | nil => rfl
  | cons w ws ih => simp at ih ⊢; omega

theorem flatMap_marked_flatten (h : ∀ w ∈ ws, Begins w)
    (halone : ∀ w ∈ ws, ∀ d ∈ w.tail, d.isUpper = false) :
    ws.flatten.flatMap (marked sep) = ws.flatMap fun w => sep :: w := by
  induction ws with
  | nil => rfl
  | cons w ws ih =>
    obtain ⟨⟨c, r, rfl, hc⟩, hws⟩ := List.forall_mem_cons.mp h
    obtain ⟨hr, halone⟩ := List.forall_mem_cons.mp halone
    rw [List.flatten_cons, List.flatMap_append, ih hws halone, List.flatMap_cons,
      flatMap_marked_of_not_upper (r := r) hr, marked, if_pos hc]
    rfl

theorem toList_joined (sep : String) (w : List Char) (ws : List (List Char)) :
    (joined sep (w :: ws)).toList = w ++ ws.flatMap fun w => sep.toList ++ w := by
  rw [joined, List.map_cons, Text.toList_join_cons, List.flatMap_map]
  simp

/-- Words that are joined with separators are spaced capitals exactly if there are as many words as
capitals. -/
theorem joined_eq_spaced_iff (hg : g sep = sep) (hc : c.isUpper = true)
    (h : ∀ w ∈ ws, Begins w) :
    (joined (String.singleton sep) (((c :: r) :: ws).map fun w => w.map g)).toList =
        (spaced sep ((c :: r) :: ws).flatten).map g ↔
      ((c :: r) :: ws).length = ((c :: r) :: ws).flatten.countP Char.isUpper := by
  have hwords : ∀ w ∈ (c :: r) :: ws, Begins w :=
    List.forall_mem_cons.mpr ⟨⟨c, r, rfl, hc⟩, h⟩
  have hspaced : spaced sep ((c :: r) :: ws).flatten =
      c :: (r.flatMap (marked sep) ++ ws.flatten.flatMap (marked sep)) := by
    rw [List.flatten_cons, List.cons_append, spaced, List.flatMap_append]
  have hjoined : (joined (String.singleton sep) (((c :: r) :: ws).map fun w => w.map g)).toList =
      ((c :: r) ++ ws.flatMap fun w => sep :: w).map g := by
    rw [List.map_cons, toList_joined, List.flatMap_map, List.map_append, List.map_flatMap,
      String.toList_singleton]
    simp [hg]
  rw [hjoined, hspaced]
  constructor
  · intro heq
    have hlength := congrArg List.length heq
    simp only [List.length_map, List.length_append, List.length_cons, length_flatMap_marked,
      length_flatMap_cons] at hlength
    rw [countP_flatten_cons hc, List.length_cons]
    omega
  · intro hlength
    have halone := (length_eq_countP_iff hwords).mp hlength
    obtain ⟨hr, halone⟩ := List.forall_mem_cons.mp halone
    rw [flatMap_marked_of_not_upper (r := r) hr, flatMap_marked_flatten h halone]
    rfl

theorem capitalized_eq (h : ∀ d ∈ c :: r, d.isAlphanum = true) (hc : c.isUpper = true) :
    capitalized (c :: r) = c :: r.map Char.toLower := by
  obtain ⟨halphanum, hr⟩ := List.forall_mem_cons.mp h
  rw [capitalized, lowerWord_eq hr, upper_eq halphanum,
    Char.toUpper_eq_of_not_isLower (Char.not_isLower_of_isUpper hc)]
  rfl

theorem countP_map_toLower : (r.map Char.toLower).countP Char.isUpper = 0 := by
  simp [List.countP_eq_zero]

theorem map_toLower_of_not_upper (h : ∀ d ∈ r, d.isUpper = false) : r.map Char.toLower = r := by
  refine (List.map_congr_left fun d hd => ?_).trans (List.map_id r)
  exact Char.toLower_eq_of_not_isUpper (by simp [h d hd])

/-- Each capitalized word has one capital. -/
theorem countP_flatMap_capitalized (h : ∀ w ∈ ws, Begins w)
    (halphanum : ∀ w ∈ ws, ∀ d ∈ w, d.isAlphanum = true) :
    (ws.flatMap capitalized).countP Char.isUpper = ws.length := by
  induction ws with
  | nil => rfl
  | cons w ws ih =>
    obtain ⟨⟨c, r, rfl, hc⟩, hws⟩ := List.forall_mem_cons.mp h
    obtain ⟨hw, halphanum⟩ := List.forall_mem_cons.mp halphanum
    rw [List.flatMap_cons, List.countP_append, ih hws halphanum, capitalized_eq hw hc,
      List.countP_cons_of_pos hc, countP_map_toLower, List.length_cons]
    omega

theorem flatMap_capitalized (h : ∀ w ∈ ws, Begins w)
    (halphanum : ∀ w ∈ ws, ∀ d ∈ w, d.isAlphanum = true)
    (halone : ∀ w ∈ ws, ∀ d ∈ w.tail, d.isUpper = false) : ws.flatMap capitalized = ws.flatten := by
  induction ws with
  | nil => rfl
  | cons w ws ih =>
    obtain ⟨⟨c, r, rfl, hc⟩, hws⟩ := List.forall_mem_cons.mp h
    obtain ⟨hw, halphanum⟩ := List.forall_mem_cons.mp halphanum
    obtain ⟨hr, halone⟩ := List.forall_mem_cons.mp halone
    rw [List.flatMap_cons, ih hws halphanum halone, capitalized_eq hw hc,
      map_toLower_of_not_upper (r := r) hr, List.flatten_cons]

/-- Behind the first character, capitalized words are what is written exactly if there are as many
words as capitals. -/
theorem capitalized_eq_iff (hc : c.isUpper = true) (h : ∀ w ∈ ws, Begins w)
    (halphanum : ∀ w ∈ ws, ∀ d ∈ w, d.isAlphanum = true) :
    r.map Char.toLower ++ ws.flatMap capitalized = r ++ ws.flatten ↔
      ((c :: r) :: ws).length = ((c :: r) :: ws).flatten.countP Char.isUpper := by
  have hwords : ∀ w ∈ (c :: r) :: ws, Begins w :=
    List.forall_mem_cons.mpr ⟨⟨c, r, rfl, hc⟩, h⟩
  constructor
  · intro heq
    have hcount := congrArg (List.countP Char.isUpper) heq
    rw [List.countP_append, List.countP_append, countP_map_toLower,
      countP_flatMap_capitalized h halphanum] at hcount
    rw [countP_flatten_cons hc, List.length_cons]
    omega
  · intro hlength
    obtain ⟨hr, halone⟩ := List.forall_mem_cons.mp ((length_eq_countP_iff hwords).mp hlength)
    rw [map_toLower_of_not_upper (r := r) hr, flatMap_capitalized h halphanum halone]

end Writing

section Renaming

variable {ident : String} {c : Char} {r : List Char} {ws : List (List Char)}

theorem isPascal_iff : isPascal ident = true ↔ ∃ c cs, ident.toList = c :: cs ∧
    c.isUpper = true ∧ ∀ d ∈ c :: cs, d.isAlphanum = true := by
  unfold isPascal
  cases ident.toList <;> simp

/-- The words of a name in letters and digits: the first one and the others. -/
structure Cut (ident : String) (c : Char) (r : List Char) (ws : List (List Char)) : Prop where
  words_eq : words ident = (c :: r) :: ws
  capital : c.isUpper = true
  begins : ∀ w ∈ ws, Begins w
  alphanum : ∀ w ∈ (c :: r) :: ws, ∀ d ∈ w, d.isAlphanum = true
  flatten : ident.toList = ((c :: r) :: ws).flatten
  apart : ((c :: r) :: ws).length = ((c :: r) :: ws).flatten.countP Char.isUpper ↔
    Apart ident.toList

theorem exists_cut (h : isPascal ident = true) : ∃ c r ws, Cut ident c r ws := by
  obtain ⟨c, cs, hident, hc, halphanum⟩ := isPascal_iff.mp h
  have hwords : words ident = wordsOfRun [] .none (c :: cs) := by
    have hpieces : Text.pieces (fun c => !isAlphanumeric c) (c :: cs) = [c :: cs] := by
      rw [Text.pieces_eq_splitOnP]
      refine List.splitOnP_eq_singleton fun d hd => ?_
      have hd := halphanum d hd
      simp [isAlphanumeric, isAscii_of_isAlphanum hd, hd]
    rw [words, hident, hpieces]
    simp
  have hflatten : (wordsOfRun [] .none (c :: cs)).flatten = c :: cs :=
    flatten_wordsOfRun (List.cons_ne_nil _ _)
  have hbegins : ∀ w ∈ wordsOfRun [] .none (c :: cs), Begins w :=
    begins_of_mem_wordsOfRun halphanum ⟨c, [], rfl, hc⟩ nofun
  have hlength : (wordsOfRun [] .none (c :: cs)).length + hidden (Mode.none.next c) cs = _ :=
    length_wordsOfRun halphanum fun _ => by simp [Char.isAlpha, hc]
  rw [Mode.next_of_upper hc] at hlength
  have hapart : hidden .upper cs = 0 ↔ Apart (c :: cs) := hidden_eq_zero_iff_apart hc
  generalize wordsOfRun [] .none (c :: cs) = ws at *
  cases ws with
  | nil => cases hflatten
  | cons w ws =>
    obtain ⟨⟨d, r, rfl, hd⟩, hws⟩ := List.forall_mem_cons.mp hbegins
    refine ⟨d, r, ws, hwords, hd, hws, fun w hw e he => ?_, by rw [hident, hflatten], ?_⟩
    · exact halphanum e (hflatten ▸ List.mem_flatten.mpr ⟨w, hw, he⟩)
    · rw [hflatten, hident, ← hapart, List.countP_cons_of_pos hc]
      simp at hlength ⊢
      omega

/-- Nothing is removed from the front of a name that begins with a capital. -/
theorem trimStartMatches_eq {cs : List Char} (h : ident.toList = c :: cs)
    (hc : c.isUpper = true) : Text.trimStartMatches "r#" ident = ident := by
  have hne : 'r' ≠ c := by
    rintro rfl
    exact absurd hc (by decide)
  have hprefix : Text.dropPrefix? "r#".toList (c :: cs) = none := if_neg hne
  rw [Text.trimStartMatches, h, List.length_cons, Text.trimStartMatches.go, hprefix, ← h]
  exact String.ofList_toList

namespace Cut

variable (cut : Cut ident c r ws)

include cut

theorem map_lowerWord : (words ident).map lowerWord =
    ((c :: r) :: ws).map fun w => w.map Char.toLower := by
  rw [cut.words_eq]
  exact List.map_congr_left fun w hw => lowerWord_eq (cut.alphanum w hw)

theorem map_upperWord : (words ident).map upperWord =
    ((c :: r) :: ws).map fun w => w.map Char.toUpper := by
  rw [cut.words_eq]
  exact List.map_congr_left fun w hw => flatMap_upper_eq (cut.alphanum w hw)

theorem toList_upperCamel :
    (upperCamel ident).toList = c :: (r.map Char.toLower ++ ws.flatMap capitalized) := by
  rw [upperCamel, cut.words_eq, List.map_cons, toList_joined,
    capitalized_eq (cut.alphanum _ List.mem_cons_self) cut.capital]
  simp [List.flatMap_map]

theorem toList_lowerCamel :
    (lowerCamel ident).toList = c.toLower :: (r.map Char.toLower ++ ws.flatMap capitalized) := by
  rw [lowerCamel, cut.words_eq]
  dsimp only
  rw [toList_joined, lowerWord_eq (cut.alphanum _ List.mem_cons_self)]
  simp [List.flatMap_map]

/-- Capitalized words are as written exactly if all capitals are apart. -/
theorem capitalized_iff_apart :
    r.map Char.toLower ++ ws.flatMap capitalized = r ++ ws.flatten ↔ Apart ident.toList := by
  rw [← cut.apart]
  exact capitalized_eq_iff cut.capital cut.begins (List.forall_mem_cons.mp cut.alphanum).2

/-- Joined words are spaced capitals exactly if all capitals are apart. -/
theorem joined_iff_apart {sep : Char} {g : Char → Char} (hg : g sep = sep) :
    (joined (String.singleton sep) (((c :: r) :: ws).map fun w => w.map g)).toList =
        (spaced sep ident.toList).map g ↔ Apart ident.toList := by
  rw [← cut.apart, cut.flatten]
  exact joined_eq_spaced_iff hg cut.capital cut.begins

theorem joined_lowerWord_iff (sep : Char) (hsep : sep.toLower = sep) :
    (joined (String.singleton sep) ((words ident).map lowerWord)).toList =
        (spaced sep ident.toList).map Char.toLower ↔ Apart ident.toList := by
  rw [cut.map_lowerWord]
  exact cut.joined_iff_apart hsep

theorem joined_upperWord_iff (sep : Char) (hsep : sep.toUpper = sep) :
    (joined (String.singleton sep) ((words ident).map upperWord)).toList =
        ((spaced sep ident.toList).map Char.toLower).map Char.toUpper ↔ Apart ident.toList := by
  have hcase (cs : List Char) : (cs.map Char.toLower).map Char.toUpper = cs.map Char.toUpper := by
    simp
  rw [cut.map_upperWord, hcase]
  exact cut.joined_iff_apart hsep

end Cut

/-- How a name is written in a style here. -/
def Style.ofWords : Style → String → String
  | .lower => toLower
  | .upper => toUpper
  | .pascal => upperCamel
  | .camel => lowerCamel
  | .snake => WordCase.snake
  | .shoutySnake => WordCase.shoutySnake
  | .kebab => WordCase.kebab
  | .shoutyKebab => WordCase.shoutyKebab

theorem rename_rule (style : Style) :
    rename ident style.rule = style.ofWords (Text.trimStartMatches "r#" ident) := by
  cases style <;> rfl

/-- Words in a style are the name of a variant in this style, as serializers write it, exactly if
all capitals are apart. Only in the two styles without words the name is always the same. -/
theorem renamed_eq_iff {s : SerialAttrs} {style : Style} {ident : String}
    (hrule : s.renameAll = some style.rule) (h : isPascal ident = true) :
    (s.renamed ident).toList = style.write ident.toList ↔
      style = .lower ∨ style = .upper ∨ Apart ident.toList := by
  obtain ⟨d, ds, hident, hd, halphanum⟩ := isPascal_iff.mp h
  obtain ⟨c, r, ws, cut⟩ := exists_cut h
  have hall : ∀ d ∈ ident.toList, d.isAlphanum = true := hident ▸ halphanum
  have hflatten := cut.flatten
  rw [List.flatten_cons, List.cons_append] at hflatten
  have hrename : s.renamed ident = style.ofWords ident := by
    rw [SerialAttrs.renamed, hrule]
    exact (rename_rule style).trans (congrArg _ (trimStartMatches_eq hident hd))
  rw [hrename]
  cases style with
  | lower => simp [Style.ofWords, Style.write, toLower, lowerFrom_eq _ hall]
  | upper => simp [Style.ofWords, Style.write, toUpper, flatMap_upper_eq hall]
  | pascal =>
    simp only [Style.ofWords, Style.write, reduceCtorEq, false_or]
    rw [cut.toList_upperCamel, ← cut.capitalized_iff_apart, hflatten, List.cons_inj_right]
  | camel =>
    simp only [Style.ofWords, reduceCtorEq, false_or]
    rw [cut.toList_lowerCamel, ← cut.capitalized_iff_apart, hflatten, Style.write,
      List.cons_inj_right]
  | snake =>
    simp only [reduceCtorEq, false_or]
    exact cut.joined_lowerWord_iff '_' (by decide)
  | shoutySnake =>
    simp only [reduceCtorEq, false_or]
    exact cut.joined_upperWord_iff '_' (by decide)
  | kebab =>
    simp only [reduceCtorEq, false_or]
    exact cut.joined_lowerWord_iff '-' (by decide)
  | shoutyKebab =>
    simp only [reduceCtorEq, false_or]
    exact cut.joined_upperWord_iff '-' (by decide)

section Names

theorem renamed_eq_iff_addresses :
    let s : SerialAttrs := { renameAll := some "snake_case" }
    (s.renameAll = some Style.snake.rule ∧ isPascal "Ipv4Address" = true) ∧
      (s.renamed "Ipv4Address").toList = Style.snake.write "Ipv4Address".toList ∧
      s.renamed "Ipv4Address" = "ipv4_address" ∧ Apart "Ipv4Address".toList := by
  intro s
  have hpascal : isPascal "Ipv4Address" = true := by decide
  have hname : (s.renamed "Ipv4Address").toList = Style.snake.write "Ipv4Address".toList := by
    decide
  have happly := (renamed_eq_iff (s := s) rfl hpascal).mp hname
  refine ⟨⟨rfl, hpascal⟩, hname, by decide, ?_⟩
  simpa using happly

/-- A run of capitals is one word but for the last of them, and a serializer does not know words. -/
theorem renamed_of_capitals :
    isPascal "HTTPServer" = true ∧
    ({ renameAll := some Style.snake.rule } : SerialAttrs).renamed "HTTPServer" = "http_server" ∧
    String.ofList (Style.snake.write "HTTPServer".toList) = "h_t_t_p_server" :=
  ⟨by decide, by decide, by decide⟩

end Names

end Renaming

end ServiceContract.WordCase
