import ServiceContract.Proofs.Schema.Naming

/-! # What the text of a type tells

If no name has a character that stands between names in a text, the text of a type determines the
type. It is read from the left: a name ends at the first character that is in no name, and a type
ends where one of the characters stands that close a list or go on with it.
-/

namespace ServiceContract

open Source

/-- The characters that stand between the names in the text of a type. -/
def separators : List Char := ['&', '[', ']', ';', '(', ')', '<', '>', ',', ':', ' ']

/-- A name that has none of these characters, and is not taken for the lack of one. -/
def isPlainName (name : String) : Bool :=
  name != "" && name != "_" && name.toList.all fun c => !separators.contains c

namespace TypeExpr

mutual

/-- A type all of whose names are plain. -/
def isPlain : TypeExpr → Bool
  | .path segments args => !segments.isEmpty && segments.all isPlainName && allPlain args
  | .ref t | .slice t | .array t _ => isPlain t
  | .tuple ts => allPlain ts
  | .dynamic | .unknown => true

def allPlain : List TypeExpr → Bool
  | [] => true
  | t :: ts => isPlain t && allPlain ts

end

theorem allPlain_iff {ts : List TypeExpr} : allPlain ts = true ↔ ∀ t ∈ ts, t.isPlain = true := by
  induction ts with
  | nil => simp [allPlain]
  | cons t ts ih => simp [allPlain, ih]

theorem isPlain_path {segments : List String} {args : List TypeExpr} :
    (path segments args).isPlain = true ↔
      segments ≠ [] ∧ (∀ s ∈ segments, isPlainName s = true) ∧ ∀ a ∈ args, a.isPlain = true := by
  simp [isPlain, allPlain_iff, and_assoc]

end TypeExpr

/-- Texts of two parts are equal part by part if the first parts end where the second ones begin. -/
theorem append_inj_of_span {α : Type} {p : α → Prop} {w w' r r' : List α} (hw : ∀ c ∈ w, ¬ p c)
    (hw' : ∀ c ∈ w', ¬ p c) (hr : ∀ c ∈ r.head?, p c) (hr' : ∀ c ∈ r'.head?, p c)
    (h : w ++ r = w' ++ r') : w = w' ∧ r = r' := by
  induction w generalizing w' with
  | nil =>
    cases w' with
    | nil => exact ⟨rfl, h⟩
    | cons c w' =>
      subst h
      exact absurd (hr c rfl) (hw' c List.mem_cons_self)
  | cons c w ih =>
    cases w' with
    | nil =>
      obtain rfl : r' = c :: (w ++ r) := h.symm
      exact absurd (hr' c rfl) (hw c List.mem_cons_self)
    | cons c' w' =>
      rw [List.cons_append, List.cons_append, List.cons.injEq] at h
      obtain ⟨rfl, h⟩ := h
      obtain ⟨rfl, rfl⟩ := ih (fun c hc => hw c (List.mem_cons_of_mem _ hc))
        (fun c hc => hw' c (List.mem_cons_of_mem _ hc)) h
      exact ⟨rfl, rfl⟩

section Names

variable {s s' : String} {r r' : List Char}

theorem isPlainName_iff : isPlainName s = true ↔
    s ≠ "" ∧ s ≠ "_" ∧ ∀ c ∈ s.toList, c ∉ separators := by
  simp [isPlainName, and_assoc]

/-- Plain names end at the first character that is in none. -/
theorem name_append_inj (hs : isPlainName s = true) (hs' : isPlainName s' = true)
    (hr : ∀ c ∈ r.head?, c ∈ separators) (hr' : ∀ c ∈ r'.head?, c ∈ separators)
    (h : s.toList ++ r = s'.toList ++ r') : s = s' ∧ r = r' := by
  obtain ⟨-, -, hs⟩ := isPlainName_iff.mp hs
  obtain ⟨-, -, hs'⟩ := isPlainName_iff.mp hs'
  obtain ⟨hw, hrest⟩ := append_inj_of_span hs hs' hr hr' h
  exact ⟨String.toList_inj.mp hw, hrest⟩

theorem segments_append_inj {ss ss' : List String} (hs : ∀ s ∈ ss, isPlainName s = true)
    (hs' : ∀ s ∈ ss', isPlainName s = true) (hr : ∀ c ∈ r.head?, c ∈ separators ∧ c ≠ ':')
    (hr' : ∀ c ∈ r'.head?, c ∈ separators ∧ c ≠ ':')
    (h : (ss.flatMap fun s => ':' :: ':' :: s.toList) ++ r =
      (ss'.flatMap fun s => ':' :: ':' :: s.toList) ++ r') : ss = ss' ∧ r = r' := by
  have colon {ss : List String} {r : List Char} (hr : ∀ c ∈ r.head?, c ∈ separators ∧ c ≠ ':') :
      ∀ c ∈ ((ss.flatMap fun s => ':' :: ':' :: s.toList) ++ r).head?, c ∈ separators := by
    cases ss with
    | nil => exact fun c hc => (hr c hc).1
    | cons s ss => simp [separators]
  induction ss generalizing ss' with
  | nil =>
    cases ss' with
    | nil => exact ⟨rfl, h⟩
    | cons s' ss' =>
      subst h
      exact absurd rfl (hr ':' rfl).2
  | cons s ss ih =>
    cases ss' with
    | nil =>
      obtain rfl := h.symm
      have hcolon := hr' ':' rfl
      exact absurd rfl hcolon.2
    | cons s' ss' =>
      obtain ⟨hs, hss⟩ := List.forall_mem_cons.mp hs
      obtain ⟨hs', hss'⟩ := List.forall_mem_cons.mp hs'
      simp only [List.flatMap_cons, List.cons_append, List.append_assoc, List.cons.injEq,
        true_and] at h
      obtain ⟨rfl, hrest⟩ := name_append_inj hs hs' (colon hr) (colon hr') h
      obtain ⟨rfl, rfl⟩ := ih hss hss' hrest
      exact ⟨rfl, rfl⟩

end Names

namespace TypeExpr

/-- The text goes on with a character that a type can be followed by, or not at all. -/
def Ends (r : List Char) : Prop := ∀ c ∈ r.head?, c ∈ [',', ';', ']', ')', '>']

/-- The text of the length of an array. -/
def lengthText : Option Nat → List Char
  | some n => Nat.toDigits 10 n
  | none => ['_']

/-- The texts of types, each after a comma. -/
def listed (ts : List TypeExpr) : List Char := ts.flatMap fun t => ',' :: ' ' :: t.text.toList

/-- The texts of types between two characters, with commas between neighbours. -/
def enclosed (before after : Char) : List TypeExpr → List Char
  | [] => [before, after]
  | t :: ts => before :: (t.text.toList ++ (listed ts ++ [after]))

/-- The text of the arguments of a path. -/
def argsText : List TypeExpr → List Char
  | [] => []
  | a :: as => enclosed '<' '>' (a :: as)

section Text

variable {t : TypeExpr} {ts : List TypeExpr}

theorem texts_eq : texts ts = ts.map text := by
  induction ts with
  | nil => rfl
  | cons t ts ih => rw [texts, ih, List.map_cons]

theorem toList_join_text : (Text.join ", " (t.text :: texts ts)).toList =
    t.text.toList ++ listed ts := by
  rw [Text.toList_join_cons, texts_eq, List.flatMap_map]
  rfl

theorem toList_text_path {segment : String} {segments : List String} :
    (path (segment :: segments) ts).text.toList =
      segment.toList ++ ((segments.flatMap fun s => ':' :: ':' :: s.toList) ++
        argsText ts) := by
  cases ts with
  | nil =>
    rw [text, Text.toList_join_cons]
    simp [argsText]
  | cons t ts =>
    simp only [text, String.toList_append, toList_join_text]
    rw [Text.toList_join_cons]
    simp [argsText, enclosed]

theorem toList_text_ref : (ref t).text.toList = '&' :: t.text.toList := by
  simp [text]

theorem toList_text_slice : (slice t).text.toList = '[' :: (t.text.toList ++ [']']) := by
  simp [text]

theorem toList_text_array (n : Option Nat) : (array t n).text.toList =
    '[' :: (t.text.toList ++ ';' :: ' ' :: (lengthText n ++ [']'])) := by
  cases n <;> simp [text, lengthText, Text.decimal]

theorem toList_text_tuple : (tuple ts).text.toList = enclosed '(' ')' ts := by
  cases ts with
  | nil => simp [text, texts, enclosed, Text.join]
  | cons t ts =>
    simp only [text, texts, String.toList_append, toList_join_text]
    simp [enclosed]

end Text

theorem ends_listed {ts : List TypeExpr} {c : Char} {r : List Char}
    (hc : c ∈ [',', ';', ']', ')', '>']) : Ends (listed ts ++ c :: r) := by
  cases ts with
  | nil => exact fun _ h => Option.some.inj h ▸ hc
  | cons t ts => simp [Ends, listed]

theorem lengthText_append_inj {m n : Option Nat} {r r' : List Char}
    (h : lengthText m ++ ']' :: r = lengthText n ++ ']' :: r') : m = n ∧ r = r' := by
  have inside : ∀ (n : Option Nat), ∀ c ∈ lengthText n, ¬ c = ']' := by
    rintro (_ | n) c hc rfl
    · simp [lengthText] at hc
    · exact absurd (Nat.isDigit_of_mem_toDigits (by decide) (by decide) hc) (by decide)
  have missing (n : Nat) : lengthText none ≠ lengthText (some n) := by
    intro hn
    have hm : '_' ∈ lengthText (some n) := hn ▸ List.mem_singleton_self '_'
    exact Nat.underscore_not_in_toDigits hm
  obtain ⟨hn, hr⟩ := append_inj_of_span (inside m) (inside n) (by simp) (by simp) h
  refine ⟨?_, (List.cons.inj hr).2⟩
  cases m with
  | none =>
    cases n with
    | none => rfl
    | some n => exact absurd hn (missing n)
  | some m =>
    cases n with
    | none => exact absurd hn.symm (missing m)
    | some n => exact congrArg some (Text.decimal_injective (congrArg String.ofList hn))

section Path

variable {segments : List String} {args : List TypeExpr} {r r' w : List Char}

/-- What follows the segments of a path is no part of them. -/
theorem mem_separators_of_mem_head (hr : Ends r) :
    ∀ c ∈ (argsText args ++ r).head?,
      c ∈ separators ∧ c ≠ ':' ∧ c ≠ ' ' := by
  cases args with
  | nil =>
    intro c hc
    have closes := hr c hc
    simp only [List.mem_cons, List.not_mem_nil, or_false] at closes
    rcases closes with rfl | rfl | rfl | rfl | rfl <;> decide
  | cons a as => simp [argsText, enclosed, separators]

theorem mem_separators_of_mem_tail (hr : Ends r) :
    ∀ c ∈ ((segments.flatMap fun s => ':' :: ':' :: s.toList) ++
      (argsText args ++ r)).head?,
      c ∈ separators ∧ c ≠ ' ' := by
  cases segments with
  | nil => exact fun c hc => (mem_separators_of_mem_head hr c hc).imp_right And.right
  | cons s ss => simp [separators]

/-- A text that begins like the one of a path begins with a name, and no blank follows it. -/
theorem isPlainName_of_path_append (h : (path segments args).isPlain = true) (hr : Ends r)
    (hw : ∀ c ∈ w, c ∉ separators) (hr' : ∀ c ∈ r'.head?, c ∈ separators)
    (he : (path segments args).text.toList ++ r = w ++ r') :
    isPlainName (String.ofList w) = true ∧ ' ' ∉ r'.head? := by
  obtain ⟨hne, hs, -⟩ := isPlain_path.mp h
  obtain ⟨s, ss, rfl⟩ := List.exists_cons_of_ne_nil hne
  have hs := hs s List.mem_cons_self
  rw [toList_text_path, List.append_assoc, List.append_assoc] at he
  obtain ⟨rfl, rfl⟩ := append_inj_of_span (isPlainName_iff.mp hs).2.2 hw
    (fun c hc => (mem_separators_of_mem_tail hr c hc).1) hr' he
  exact ⟨by rwa [String.ofList_toList], fun hc => (mem_separators_of_mem_tail hr ' ' hc).2 rfl⟩

theorem path_append_ne_of_separator {c : Char} (h : (path segments args).isPlain = true)
    (hr : Ends r) (hc : c ∈ separators) : (path segments args).text.toList ++ r ≠ c :: r' := by
  intro he
  have hname := isPlainName_of_path_append (w := []) h hr (by simp) (by simpa using hc) he
  exact absurd hname.1 (by decide)

theorem path_append_ne_dynamic (h : (path segments args).isPlain = true) (hr : Ends r) :
    (path segments args).text.toList ++ r ≠ dynamic.text.toList ++ r' := by
  intro he
  have he : (path segments args).text.toList ++ r = ['d', 'y', 'n'] ++ ' ' :: '_' :: r' := he
  exact (isPlainName_of_path_append h hr (by simp [separators]) (by simp [separators]) he).2 rfl

theorem path_append_ne_unknown (h : (path segments args).isPlain = true) (hr : Ends r)
    (hr' : Ends r') : (path segments args).text.toList ++ r ≠ unknown.text.toList ++ r' := by
  intro he
  have hends : ∀ c ∈ r'.head?, c ∈ separators := by
    intro c hc
    have hall : ∀ c ∈ [',', ';', ']', ')', '>'], c ∈ separators := by simp [separators]
    exact hall c (hr' c hc)
  have hname := isPlainName_of_path_append (w := ['_']) h hr (by simp [separators]) hends he
  exact absurd hname.1 (by decide)

/-- The character that the text of a type other than a path begins with. -/
def lead? : TypeExpr → Option Char
  | .path _ _ => none
  | .ref _ => some '&'
  | .slice _ | .array _ _ => some '['
  | .tuple _ => some '('
  | .dynamic => some 'd'
  | .unknown => some '_'

theorem exists_text_eq_cons {t : TypeExpr} {c : Char} (h : t.lead? = some c) :
    ∃ w, t.text.toList = c :: w := by
  cases t with
  | path ss as => cases h
  | ref t => cases h; exact ⟨_, toList_text_ref⟩
  | slice t => cases h; exact ⟨_, toList_text_slice⟩
  | array t n => cases h; exact ⟨_, toList_text_array n⟩
  | tuple ts =>
    cases h
    rw [toList_text_tuple]
    cases ts <;> exact ⟨_, rfl⟩
  | dynamic => cases h; exact ⟨_, rfl⟩
  | unknown => cases h; exact ⟨_, rfl⟩

theorem lead?_eq_none_of_path_append {u : TypeExpr} (h : (path segments args).isPlain = true)
    (hr : Ends r) (hr' : Ends r')
    (he : (path segments args).text.toList ++ r = u.text.toList ++ r') : u.lead? = none := by
  have separator {c : Char} (hc : u.lead? = some c) (hs : c ∈ separators) : u.lead? = none := by
    obtain ⟨w, hw⟩ := exists_text_eq_cons hc
    rw [hw] at he
    exact absurd he (path_append_ne_of_separator h hr hs)
  cases u with
  | path ss as => rfl
  | ref t => exact separator rfl (by decide)
  | slice t => exact separator rfl (by decide)
  | array t n => exact separator rfl (by decide)
  | tuple ts => exact separator rfl (by decide)
  | dynamic => exact absurd he (path_append_ne_dynamic h hr)
  | unknown => exact absurd he (path_append_ne_unknown h hr hr')

/-- Texts of types of different kinds begin differently. -/
theorem lead?_eq {t u : TypeExpr} (ht : t.isPlain = true) (hu : u.isPlain = true) (hr : Ends r)
    (hr' : Ends r') (h : t.text.toList ++ r = u.text.toList ++ r') : t.lead? = u.lead? := by
  cases hl : t.lead? with
  | none =>
    cases t with
    | path ss as => exact (lead?_eq_none_of_path_append ht hr hr' h).symm
    | _ => cases hl
  | some c =>
    cases hl' : u.lead? with
    | none =>
      cases u with
      | path ss as =>
        rw [lead?_eq_none_of_path_append hu hr' hr h.symm] at hl
        cases hl
      | _ => cases hl'
    | some c' =>
      obtain ⟨w, hw⟩ := exists_text_eq_cons hl
      obtain ⟨w', hw'⟩ := exists_text_eq_cons hl'
      rw [hw, hw'] at h
      rw [(List.cons.inj h).1]

theorem path_append_inj {segments' : List String} {args' : List TypeExpr}
    (h : (path segments args).isPlain = true) (h' : (path segments' args').isPlain = true)
    (hr : Ends r) (hr' : Ends r')
    (he : (path segments args).text.toList ++ r = (path segments' args').text.toList ++ r') :
    segments = segments' ∧ argsText args ++ r = argsText args' ++ r' := by
  obtain ⟨hne, hs, -⟩ := isPlain_path.mp h
  obtain ⟨hne', hs', -⟩ := isPlain_path.mp h'
  obtain ⟨s, ss, rfl⟩ := List.exists_cons_of_ne_nil hne
  obtain ⟨s', ss', rfl⟩ := List.exists_cons_of_ne_nil hne'
  obtain ⟨hs, hss⟩ := List.forall_mem_cons.mp hs
  obtain ⟨hs', hss'⟩ := List.forall_mem_cons.mp hs'
  rw [toList_text_path, toList_text_path] at he
  simp only [List.append_assoc] at he
  obtain ⟨rfl, htail⟩ := name_append_inj hs hs'
    (fun c hc => (mem_separators_of_mem_tail hr c hc).1)
    (fun c hc => (mem_separators_of_mem_tail hr' c hc).1) he
  obtain ⟨rfl, hargs⟩ := segments_append_inj hss hss'
    (fun c hc => (mem_separators_of_mem_head hr c hc).imp_right And.left)
    (fun c hc => (mem_separators_of_mem_head hr' c hc).imp_right And.left) htail
  exact ⟨rfl, hargs⟩

/-- No type begins where a list of types ends. -/
theorem text_append_ne_of_closing {t : TypeExpr} {c : Char} (ht : t.isPlain = true) (hr : Ends r)
    (hc : c ∈ [')', '>']) : t.text.toList ++ r ≠ c :: r' := by
  intro he
  have hall : ∀ c ∈ [')', '>'], c ∈ separators ∧ ∀ l ∈ ['&', '[', '(', 'd', '_'], l ≠ c := by
    simp [separators]
  cases hl : t.lead? with
  | none =>
    cases t with
    | path ss as => exact path_append_ne_of_separator ht hr (hall c hc).1 he
    | _ => cases hl
  | some l =>
    obtain ⟨w, hw⟩ := exists_text_eq_cons hl
    rw [hw] at he
    refine (hall c hc).2 l ?_ (List.cons.inj he).1
    cases t <;> cases hl <;> decide

end Path

mutual

/-- Where a text ends, and which type it is of, is told by the text. -/
theorem text_append_inj (t u : TypeExpr) (ht : t.isPlain = true) (hu : u.isPlain = true)
    {r r' : List Char} (hr : Ends r) (hr' : Ends r')
    (h : t.text.toList ++ r = u.text.toList ++ r') : t = u ∧ r = r' := by
  have hlead := lead?_eq ht hu hr hr' h
  cases t <;> cases u <;> simp [lead?] at hlead
  case path.path ss as ss' as' =>
    obtain ⟨-, -, has⟩ := isPlain_path.mp ht
    obtain ⟨-, -, has'⟩ := isPlain_path.mp hu
    obtain ⟨rfl, hargs⟩ := path_append_inj ht hu hr hr' h
    cases as with
    | nil =>
      cases as' with
      | nil => exact ⟨rfl, hargs⟩
      | cons a' as' =>
        -- What follows a type never begins with a list of arguments.
        subst hargs
        exact absurd (hr '<' rfl) (by decide)
    | cons a as =>
      cases as' with
      | nil =>
        obtain rfl := hargs.symm
        have hclosing := hr' '<' rfl
        exact absurd hclosing (by decide)
      | cons a' as' =>
        obtain ⟨has, rfl⟩ := enclosed_append_inj (a :: as) (a' :: as') has has' (by simp) hargs
        exact ⟨by rw [has], rfl⟩
  case ref.ref t u =>
    simp only [toList_text_ref, List.cons_append, List.cons.injEq, true_and] at h
    obtain ⟨rfl, rfl⟩ := text_append_inj t u ht hu hr hr' h
    exact ⟨rfl, rfl⟩
  case slice.slice t u =>
    simp only [toList_text_slice, List.cons_append, List.append_assoc, List.cons.injEq,
      true_and] at h
    obtain ⟨rfl, hrest⟩ := text_append_inj t u ht hu (by simp [Ends]) (by simp [Ends]) h
    exact ⟨rfl, (List.cons.inj hrest).2⟩
  case slice.array t u n =>
    simp only [toList_text_slice, toList_text_array, List.cons_append, List.append_assoc,
      List.cons.injEq, true_and] at h
    obtain ⟨rfl, hrest⟩ := text_append_inj t u ht hu (by simp [Ends]) (by simp [Ends]) h
    simp at hrest
  case array.slice t n u =>
    simp only [toList_text_slice, toList_text_array, List.cons_append, List.append_assoc,
      List.cons.injEq, true_and] at h
    obtain ⟨rfl, hrest⟩ := text_append_inj t u ht hu (by simp [Ends]) (by simp [Ends]) h
    simp at hrest
  case array.array t m u n =>
    simp only [toList_text_array, List.cons_append, List.append_assoc, List.cons.injEq,
      true_and] at h
    obtain ⟨rfl, hrest⟩ := text_append_inj t u ht hu (by simp [Ends]) (by simp [Ends]) h
    simp only [List.cons.injEq, true_and] at hrest
    obtain ⟨rfl, rfl⟩ := lengthText_append_inj hrest
    exact ⟨rfl, rfl⟩
  case tuple.tuple ts us =>
    rw [toList_text_tuple, toList_text_tuple] at h
    obtain ⟨rfl, rfl⟩ := enclosed_append_inj ts us (allPlain_iff.mp ht) (allPlain_iff.mp hu)
      (by simp) h
    exact ⟨rfl, rfl⟩
  case dynamic.dynamic => exact ⟨rfl, List.append_cancel_left h⟩
  case unknown.unknown => exact ⟨rfl, List.append_cancel_left h⟩

theorem enclosed_append_inj (ts us : List TypeExpr) (ht : ∀ t ∈ ts, t.isPlain = true)
    (hu : ∀ u ∈ us, u.isPlain = true) {before after : Char} {r r' : List Char}
    (hc : after ∈ [')', '>'])
    (h : enclosed before after ts ++ r = enclosed before after us ++ r') : ts = us ∧ r = r' := by
  have ends {ts : List TypeExpr} {r : List Char} : Ends (listed ts ++ after :: r) :=
    ends_listed (List.mem_of_mem_tail (by simp at hc ⊢; tauto))
  cases ts with
  | nil =>
    cases us with
    | nil => exact ⟨rfl, List.append_cancel_left h⟩
    | cons u us =>
      simp only [enclosed, List.cons_append, List.append_assoc, List.nil_append,
        List.cons.injEq, true_and] at h
      exact absurd h.symm (text_append_ne_of_closing (hu u List.mem_cons_self) ends hc)
  | cons t ts =>
    obtain ⟨ht, hts⟩ := List.forall_mem_cons.mp ht
    cases us with
    | nil =>
      simp only [enclosed, List.cons_append, List.append_assoc, List.nil_append,
        List.cons.injEq, true_and] at h
      exact absurd h (text_append_ne_of_closing ht ends hc)
    | cons u us =>
      obtain ⟨hu, hus⟩ := List.forall_mem_cons.mp hu
      simp only [enclosed, List.cons_append, List.append_assoc, List.nil_append,
        List.cons.injEq, true_and] at h
      obtain ⟨rfl, hrest⟩ := text_append_inj t u ht hu ends ends h
      obtain ⟨rfl, rfl⟩ := listed_append_inj ts us hts hus hc hrest
      exact ⟨rfl, rfl⟩

theorem listed_append_inj (ts us : List TypeExpr) (ht : ∀ t ∈ ts, t.isPlain = true)
    (hu : ∀ u ∈ us, u.isPlain = true) {c : Char} {r r' : List Char} (hc : c ∈ [')', '>'])
    (h : listed ts ++ c :: r = listed us ++ c :: r') : ts = us ∧ r = r' := by
  have ends {ts : List TypeExpr} {r : List Char} : Ends (listed ts ++ c :: r) :=
    ends_listed (List.mem_of_mem_tail (by simp at hc ⊢; tauto))
  have comma : ',' ≠ c := by rintro rfl; exact absurd hc (by decide)
  cases ts with
  | nil =>
    cases us with
    | nil => exact ⟨rfl, (List.cons.inj h).2⟩
    | cons u us => exact absurd (List.cons.inj h).1.symm comma
  | cons t ts =>
    obtain ⟨ht, hts⟩ := List.forall_mem_cons.mp ht
    cases us with
    | nil => exact absurd (List.cons.inj h).1 comma
    | cons u us =>
      obtain ⟨hu, hus⟩ := List.forall_mem_cons.mp hu
      simp only [listed, List.flatMap_cons, List.cons_append, List.append_assoc, List.cons.injEq,
        true_and] at h
      obtain ⟨rfl, hrest⟩ := text_append_inj t u ht hu ends ends h
      obtain ⟨rfl, rfl⟩ := listed_append_inj ts us hts hus hc hrest
      exact ⟨rfl, rfl⟩

end

theorem text_inj {t u : TypeExpr} (ht : t.isPlain = true) (hu : u.isPlain = true)
    (h : t.text = u.text) : t = u := by
  have ends : Ends [] := by simp [Ends]
  exact (text_append_inj t u ht hu ends ends (by rw [h])).1

end TypeExpr

end ServiceContract
