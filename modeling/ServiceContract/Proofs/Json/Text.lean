import ServiceContract.Proofs.Json.Node
import ServiceContract.Proofs.Json.Tokens
import Mathlib.Data.List.DropRight
import Mathlib.Data.List.Forall2

/-! # Texts of values are read back

The compact text and the pretty text of a value are read as this value, whatever stands behind
them, if it is not nested too deeply, has no key twice in an object, and its numbers are read back.
-/

namespace ServiceContract

/-- The reader takes all of the text of the number for this number. -/
def JsonNumber.ReadsBack (x : JsonNumber) : Prop :=
  Json.value 0 1 (Json.numberText x).toList = some (.num x, [])

namespace Json

/-- All numbers inside are read back. -/
abbrev NumbersReadBack : Json → Prop := Every fun v => ∀ x, v = .num x → x.ReadsBack

/-- Characters that are passed over. -/
def Blank (cs : List Char) : Prop := ∀ c ∈ cs, c ∈ [' ', '\n', '\t', '\r']

section Blanks

variable {cs b : List Char} {depth n : Nat}

theorem skipBlanks_append (h : Blank b) : skipBlanks (b ++ cs) = skipBlanks cs := by
  unfold skipBlanks
  refine List.dropWhile_append_of_pos fun c hc => ?_
  have hmem := h c hc
  simpa [or_assoc] using hmem

theorem skipBlanks_cons {c : Char} (h : c ∉ [' ', '\n', '\t', '\r']) :
    skipBlanks (c :: cs) = c :: cs := by
  refine List.dropWhile_cons_of_neg ?_
  simpa [or_assoc] using h

/-- Blanks in front of a value do not matter. -/
theorem value_eq_of_skipBlanks {cs' : List Char} (h : skipBlanks cs = skipBlanks cs') :
    value depth n cs = value depth n cs' := by
  cases n with
  | zero => rfl
  | succ n => rw [value, value, h]

theorem value_append (h : Blank b) : value depth n (b ++ cs) = value depth n cs :=
  value_eq_of_skipBlanks (skipBlanks_append h)

theorem skipBlanks_skipBlanks : skipBlanks (skipBlanks cs) = skipBlanks cs :=
  List.dropWhile_idempotent _ _

end Blanks

/-- In front of whatever stops it, the text is read as the value. -/
structure Spells (v : Json) (cs : List Char) : Prop where
  ne_nil : cs ≠ []
  reads : ∀ {depth n rest}, v.depth ≤ depth → 2 * cs.length ≤ n → Stops rest →
    value depth n (cs ++ rest) = some (v, rest)

section Spelling

variable {v : Json} {cs rest b : List Char} {depth n : Nat}

theorem value_quote (h : skipBlanks cs = '"' :: b) : value depth (n + 1) cs =
    (stringBody (b.length + 1) [] b).map fun (s, rest) => (.str s, rest) := by
  rw [value, h]
  rfl

theorem value_minus (h : skipBlanks cs = '-' :: b) : value depth (n + 1) cs =
    (magnitude false b).map fun (x, rest) => (.num x, rest) := by
  rw [value, h]
  rfl

theorem value_digit {c : Char} (h : skipBlanks cs = c :: b) (hc : c.isDigit = true) :
    value depth (n + 1) cs = (magnitude true (c :: b)).map fun (x, rest) => (.num x, rest) := by
  rw [value, h]
  split
  case h_8 => rfl
  all_goals
    next heq =>
    cases heq
    exact absurd hc (by decide)

theorem isDigit_of_magnitude {c : Char} {positive : Bool} {r : JsonNumber × List Char}
    (h : magnitude positive (c :: cs) = some r) : c.isDigit = true := by
  by_contra hc
  simp [magnitude, digitRun, hc] at h

/-- The end of an array is no value. -/
theorem value_closing {t : List Char} (h : skipBlanks cs = ']' :: t) : value depth n cs = none := by
  cases n with
  | zero => rfl
  | succ n =>
    rw [value, h]
    simp [magnitude, digitRun]

theorem Spells.not_closing (h : Spells v cs) (t : List Char) (hs : Stops rest) :
    skipBlanks (cs ++ rest) ≠ ']' :: t := by
  intro hc
  have hr := h.reads (Nat.le_refl _) (Nat.le_refl _) hs
  rw [value_closing hc] at hr
  cases hr

theorem Spells.of_literal {literal : List Char} (hne : literal ≠ [])
    (h : ∀ depth n rest, value depth (n + 1) (literal ++ rest) = some (v, rest)) :
    Spells v literal := by
  refine ⟨hne, fun {depth n rest} _ hn _ => ?_⟩
  have hpos : 0 < literal.length := List.length_pos_iff.mpr hne
  obtain ⟨n, rfl⟩ := Nat.exists_eq_succ_of_ne_zero (show n ≠ 0 by omega)
  exact h depth n rest

theorem spells_null : Spells .null "null".toList :=
  .of_literal (by decide) fun _ _ _ => rfl

theorem spells_bool (b : Bool) : Spells (.bool b) (if b then "true" else "false").toList := by
  cases b <;> exact .of_literal (by decide) fun _ _ _ => rfl

theorem spells_str (s : String) : Spells (.str s) (quoted s).toList := by
  rw [toList_quoted]
  refine .of_literal (by simp) fun depth n rest => ?_
  rw [List.cons_append, List.append_assoc, List.singleton_append,
    value_quote (skipBlanks_cons (by decide)),
    stringBody_quoted s rest (by simp only [List.length_append, List.length_cons]; omega)]
  rfl

/-- A number begins with its sign or with a digit. -/
theorem exists_of_value_eq_num {x : JsonNumber} (h : value 0 1 cs = some (.num x, b)) :
    (∃ t, skipBlanks cs = '-' :: t ∧ magnitude false t = some (x, b)) ∨
      ∃ c t, skipBlanks cs = c :: t ∧ magnitude true (c :: t) = some (x, b) := by
  have number {positive : Bool} {t : List Char}
      (h : ((magnitude positive t).map fun (x, rest) => (Json.num x, rest)) = some (.num x, b)) :
      magnitude positive t = some (x, b) := by
    obtain ⟨y, hy, he⟩ := Option.map_eq_some_iff.mp h
    cases he
    exact hy
  rw [value] at h
  split at h
  · cases h
  · cases h
  · cases h
  · obtain ⟨_, _, he⟩ := Option.map_eq_some_iff.mp h
    cases he
  · cases h
  · cases h
  · next heq => exact .inl ⟨_, heq, number h⟩
  · cases hs : skipBlanks cs with
    | nil =>
      rw [hs] at h
      simp [magnitude, digitRun] at h
    | cons c t =>
      rw [hs] at h
      exact .inr ⟨c, t, rfl, number h⟩

theorem skipBlanks_append_of_cons {c : Char} (h : skipBlanks cs = c :: b) (rest : List Char) :
    skipBlanks (cs ++ rest) = c :: (b ++ rest) := by
  unfold skipBlanks at h ⊢
  rw [List.dropWhile_append, h]
  rfl

/-- A number that is read back from its text alone is read back in front of other text. -/
theorem spells_num {x : JsonNumber} (h : x.ReadsBack) : Spells (.num x) (numberText x).toList := by
  have hne : (numberText x).toList ≠ [] := by
    intro hn
    rw [JsonNumber.ReadsBack, hn] at h
    simp [value, skipBlanks, magnitude, digitRun] at h
  refine ⟨hne, fun {depth n rest} _ hn hrest => ?_⟩
  have hpos : 0 < (numberText x).toList.length := List.length_pos_iff.mpr hne
  obtain ⟨n, rfl⟩ := Nat.exists_eq_succ_of_ne_zero (show n ≠ 0 by omega)
  rcases exists_of_value_eq_num h with ⟨t, hs, hm⟩ | ⟨c, t, hs, hm⟩
  · rw [value_minus (skipBlanks_append_of_cons hs rest), magnitude_append hrest hm]
    rfl
  · rw [value_digit (skipBlanks_append_of_cons hs rest) (isDigit_of_magnitude hm),
      ← List.cons_append, magnitude_append hrest hm]
    rfl

end Spelling

/-- What stands in front of an item and behind the last one: nothing, or a line break and blanks. -/
structure Gap (b : List Char) : Prop where
  blank : Blank b
  stops : ∀ c ∈ b.head?, c = '\n'

section Nesting

variable {v : Json} {cs rest gap close : List Char} {css : List (List Char)} {depth n : Nat}

theorem Gap.stops_append (h : Gap close) {c : Char} (hc : c ∈ ['\n', ',', ']', '\x7d']) :
    Stops (close ++ c :: rest) := by
  cases close with
  | nil => exact fun d hd => Option.some.inj hd ▸ hc
  | cons d close =>
    intro d' hd'
    obtain rfl : d = d' := Option.some.inj hd'
    simp [h.stops d rfl]

theorem stops_cons {c : Char} (hc : c ∈ ['\n', ',', ']', '\x7d']) : Stops (c :: rest) :=
  fun _ hd => Option.some.inj hd ▸ hc

theorem items_eq_of_skipBlanks {acc : List Json} {cs' : List Char}
    (h : skipBlanks cs = skipBlanks cs') : items depth n acc cs = items depth n acc cs' := by
  cases n with
  | zero => rfl
  | succ n => rw [items, items, value_eq_of_skipBlanks h]

/-- The texts of items behind the first one. -/
def others (gap : List Char) (css : List (List Char)) : List Char :=
  css.flatMap fun cs => ',' :: (gap ++ cs)

theorem length_others_cons : (others gap (cs :: css)).length =
    1 + gap.length + cs.length + (others gap css).length := by
  simp only [others, List.flatMap_cons, List.length_append, List.length_cons]
  omega

theorem others_cons_append :
    others gap (cs :: css) ++ rest = ',' :: (gap ++ (cs ++ (others gap css ++ rest))) := by
  simp [others]

/-- Items are read one after the other up to the bracket behind them. -/
theorem items_spelled {vs acc : List Json} (hv : Spells v cs) (hvs : List.Forall₂ Spells vs css)
    (hdepth : ∀ w ∈ v :: vs, w.depth ≤ depth) (hgap : Blank gap) (hclose : Gap close)
    (hn : 2 * (cs.length + (others gap css).length) < n) :
    items depth n acc (cs ++ (others gap css ++ (close ++ ']' :: rest))) =
      some (acc.reverse ++ v :: vs, rest) := by
  induction hvs generalizing v cs acc n with
  | nil =>
    obtain ⟨n, rfl⟩ := Nat.exists_eq_succ_of_ne_zero (show n ≠ 0 by omega)
    have hread : value depth n (cs ++ (close ++ ']' :: rest)) = some (v, close ++ ']' :: rest) :=
      hv.reads (hdepth v List.mem_cons_self) (by simp [others] at hn; omega)
        (hclose.stops_append (by decide))
    rw [items, others, List.flatMap_nil, List.nil_append, hread]
    dsimp only
    rw [skipBlanks_append hclose.blank, skipBlanks_cons (by decide)]
    simp
  | @cons w ds ws dss hw hws ih =>
    obtain ⟨hvd, hwsd⟩ := List.forall_mem_cons.mp hdepth
    obtain ⟨n, rfl⟩ := Nat.exists_eq_succ_of_ne_zero (show n ≠ 0 by omega)
    rw [length_others_cons] at hn
    rw [items, others_cons_append, hv.reads hvd (by omega) (stops_cons (by decide))]
    dsimp only
    rw [skipBlanks_cons (by decide)]
    change items depth n (v :: acc) (gap ++ _) = _
    rw [items_eq_of_skipBlanks (skipBlanks_append hgap), ih hw hwsd (by omega)]
    simp

theorem value_bracket (h : skipBlanks cs = '[' :: rest) (hd : depth ≠ 0)
    (hc : ∀ t, skipBlanks rest ≠ ']' :: t) : value depth (n + 1) cs =
      (items (depth - 1) n [] rest).map fun (vs, rest) => (.arr vs, rest) := by
  rw [value, h]
  change (if depth = 0 then none else _) = _
  rw [if_neg hd, ← items_eq_of_skipBlanks skipBlanks_skipBlanks]
  split
  · next heq => exact absurd heq (hc _)
  · rfl

theorem spells_empty_arr : Spells (.arr []) "[]".toList := by
  refine ⟨by decide, fun {depth n rest} hd hn _ => ?_⟩
  obtain ⟨n, rfl⟩ := Nat.exists_eq_succ_of_ne_zero (show n ≠ 0 by rintro rfl; simp at hn)
  have hne : depth ≠ 0 := fun h => Nat.not_succ_le_zero _ (h ▸ hd)
  change value depth (n + 1) ('[' :: ']' :: rest) = _
  rw [value, skipBlanks_cons (by decide)]
  change (if depth = 0 then none else _) = _
  rw [if_neg hne, skipBlanks_cons (by decide)]
  rfl

/-- An array is read back from its items, whatever blanks stand between them. -/
theorem spells_arr {vs : List Json} (hv : Spells v cs) (hvs : List.Forall₂ Spells vs css)
    (hgap : Gap gap) (hclose : Gap close) :
    Spells (.arr (v :: vs)) ('[' :: (gap ++ (cs ++ (others gap css ++ (close ++ [']']))))) := by
  refine ⟨by simp, fun {depth n rest} hd hn hrest => ?_⟩
  obtain ⟨n, rfl⟩ := Nat.exists_eq_succ_of_ne_zero (show n ≠ 0 by rintro rfl; simp at hn)
  obtain ⟨depth, rfl⟩ := Nat.exists_eq_succ_of_ne_zero
    (show depth ≠ 0 from fun h => Nat.not_succ_le_zero _ (h ▸ hd))
  have htext : '[' :: (gap ++ (cs ++ (others gap css ++ (close ++ [']'])))) ++ rest =
      '[' :: (gap ++ (cs ++ (others gap css ++ (close ++ ']' :: rest)))) := by simp
  have hstops : Stops (others gap css ++ (close ++ ']' :: rest)) := by
    cases css with
    | nil => exact hclose.stops_append (by decide)
    | cons _ _ => exact stops_cons (by decide)
  rw [htext, value_bracket (skipBlanks_cons (by decide)) (Nat.succ_ne_zero _) (fun t => by
      rw [skipBlanks_append hgap.blank]
      exact hv.not_closing t hstops),
    items_eq_of_skipBlanks (skipBlanks_append hgap.blank), Nat.succ_sub_one,
    items_spelled hv hvs (depth_arr_le_iff.mp hd) hgap.blank hclose (by simp at hn; omega)]
  rfl

/-- A field is its quoted key, a colon and a value, which blanks may stand before. -/
inductive FieldSpells : String × Json → List Char → Prop
  | of_value {k v b cs} : Blank b → Spells v cs →
    FieldSpells (k, v) ((quoted k).toList ++ ':' :: (b ++ cs))

variable {f : String × Json} {fs acc : List (String × Json)}

theorem fields_of_field {k : String} {b r r' : List Char} (hquote : skipBlanks cs = '"' :: b)
    (hkey : stringBody (b.length + 1) [] b = some (k, r)) (hcolon : skipBlanks r = ':' :: r')
    (hvalue : value depth n r' = some (v, rest)) : fields depth (n + 1) acc cs =
      match skipBlanks rest with
      | ',' :: rest => fields depth n (setKey k v acc) rest
      | '\x7d' :: rest => some (setKey k v acc, rest)
      | _ => none := by
  simp only [fields, hquote, hkey, hcolon, hvalue]
  all_goals rfl

theorem fields_eq_of_skipBlanks {cs' : List Char} (h : skipBlanks cs = skipBlanks cs') :
    fields depth n acc cs = fields depth n acc cs' := by
  cases n with
  | zero => rfl
  | succ n => rw [fields, fields, h]

theorem FieldSpells.reads (h : FieldSpells f cs) (hd : f.2.depth ≤ depth) (hn : 2 * cs.length ≤ n)
    (hrest : Stops rest) : fields depth (n + 1) acc (cs ++ rest) =
      match skipBlanks rest with
      | ',' :: rest => fields depth n (setKey f.1 f.2 acc) rest
      | '\x7d' :: rest => some (setKey f.1 f.2 acc, rest)
      | _ => none := by
  cases h with
  | @of_value k v b vcs hb hv =>
    have hvn : 2 * vcs.length ≤ n := by
      simp only [List.length_append, List.length_cons] at hn
      omega
    have htext : (quoted k).toList ++ ':' :: (b ++ vcs) ++ rest =
        '"' :: (k.toList.flatMap escapeChar ++ '"' :: (':' :: (b ++ (vcs ++ rest)))) := by
      simp [toList_quoted]
    rw [htext]
    exact fields_of_field (skipBlanks_cons (by decide))
      (stringBody_quoted k _ (by simp only [List.length_append, List.length_cons]; omega))
      (skipBlanks_cons (by decide)) (by rw [value_append hb, hv.reads hd hvn hrest])

theorem setKey_of_nodup (h : ((acc ++ f :: fs).map Prod.fst).Nodup) :
    setKey f.1 f.2 acc = acc ++ [f] := by
  rw [List.map_append, List.map_cons] at h
  exact setKey_of_not_mem fun hk => (List.nodup_append.mp h).2.2 _ hk _ List.mem_cons_self rfl

/-- Fields are read one after the other up to the brace behind them. -/
theorem fields_spelled (hf : FieldSpells f cs) (hfs : List.Forall₂ FieldSpells fs css)
    (hdepth : ∀ g ∈ f :: fs, g.2.depth ≤ depth)
    (hkeys : ((acc ++ f :: fs).map Prod.fst).Nodup) (hgap : Blank gap) (hclose : Gap close)
    (hn : 2 * (cs.length + (others gap css).length) < n) :
    fields depth n acc (cs ++ (others gap css ++ (close ++ '\x7d' :: rest))) =
      some (acc ++ f :: fs, rest) := by
  induction hfs generalizing f cs acc n with
  | nil =>
    obtain ⟨n, rfl⟩ := Nat.exists_eq_succ_of_ne_zero (show n ≠ 0 by omega)
    rw [others, List.flatMap_nil, List.nil_append, hf.reads (hdepth f List.mem_cons_self)
      (by simp [others] at hn; omega) (hclose.stops_append (by decide)),
      skipBlanks_append hclose.blank, skipBlanks_cons (by decide), setKey_of_nodup hkeys]
    rfl
  | @cons g ds gs dss hg hgs ih =>
    obtain ⟨hfd, hfsd⟩ := List.forall_mem_cons.mp hdepth
    obtain ⟨n, rfl⟩ := Nat.exists_eq_succ_of_ne_zero (show n ≠ 0 by omega)
    rw [length_others_cons] at hn
    rw [others_cons_append, hf.reads hfd (by omega) (stops_cons (by decide)),
      skipBlanks_cons (by decide)]
    change fields depth n (setKey f.1 f.2 acc) (gap ++ _) = _
    rw [fields_eq_of_skipBlanks (skipBlanks_append hgap), setKey_of_nodup hkeys,
      ih hg hfsd (by simpa using hkeys) (by omega)]
    simp

theorem value_brace (h : skipBlanks cs = '\x7b' :: rest) (hd : depth ≠ 0)
    (hc : ∀ t, skipBlanks rest ≠ '\x7d' :: t) : value depth (n + 1) cs =
      (fields (depth - 1) n [] rest).map fun (fs, rest) => (.obj fs, rest) := by
  rw [value, h]
  change (if depth = 0 then none else _) = _
  rw [if_neg hd, ← fields_eq_of_skipBlanks skipBlanks_skipBlanks]
  split
  · next heq => exact absurd heq (hc _)
  · rfl

theorem FieldSpells.not_closing (h : FieldSpells f cs) (t : List Char) :
    skipBlanks (cs ++ rest) ≠ '\x7d' :: t := by
  cases h with
  | of_value hb hv =>
    rw [toList_quoted, List.cons_append, List.cons_append, skipBlanks_cons (by decide)]
    simp

theorem spells_empty_obj : Spells (.obj []) "\x7b\x7d".toList := by
  refine ⟨by decide, fun {depth n rest} hd hn _ => ?_⟩
  obtain ⟨n, rfl⟩ := Nat.exists_eq_succ_of_ne_zero (show n ≠ 0 by rintro rfl; simp at hn)
  have hne : depth ≠ 0 := fun h => Nat.not_succ_le_zero _ (h ▸ hd)
  change value depth (n + 1) ('\x7b' :: '\x7d' :: rest) = _
  rw [value, skipBlanks_cons (by decide)]
  change (if depth = 0 then none else _) = _
  rw [if_neg hne, skipBlanks_cons (by decide)]
  rfl

/-- An object without a key twice is read back from its fields, whatever blanks stand between
them. -/
theorem spells_obj (hf : FieldSpells f cs) (hfs : List.Forall₂ FieldSpells fs css)
    (hkeys : ((f :: fs).map Prod.fst).Nodup) (hgap : Gap gap) (hclose : Gap close) :
    Spells (.obj (f :: fs))
      ('\x7b' :: (gap ++ (cs ++ (others gap css ++ (close ++ ['\x7d']))))) := by
  refine ⟨by simp, fun {depth n rest} hd hn hrest => ?_⟩
  obtain ⟨n, rfl⟩ := Nat.exists_eq_succ_of_ne_zero (show n ≠ 0 by rintro rfl; simp at hn)
  obtain ⟨depth, rfl⟩ := Nat.exists_eq_succ_of_ne_zero
    (show depth ≠ 0 from fun h => Nat.not_succ_le_zero _ (h ▸ hd))
  have htext : '\x7b' :: (gap ++ (cs ++ (others gap css ++ (close ++ ['\x7d'])))) ++ rest =
      '\x7b' :: (gap ++ (cs ++ (others gap css ++ (close ++ '\x7d' :: rest)))) := by simp
  rw [htext, value_brace (skipBlanks_cons (by decide)) (Nat.succ_ne_zero _) (fun t => by
      rw [skipBlanks_append hgap.blank]
      exact hf.not_closing t),
    fields_eq_of_skipBlanks (skipBlanks_append hgap.blank), Nat.succ_sub_one,
    fields_spelled hf hfs (depth_obj_le_iff.mp hd) hkeys hgap.blank hclose
      (by simp at hn; omega)]
  rfl

end Nesting

section Printers

variable {v : Json} {vs : List Json} {fs : List (String × Json)}

theorem gap_nil : Gap [] := ⟨by simp [Blank], by simp⟩

theorem gap_newline (d : Nat) : Gap (newline d).toList := by
  refine ⟨fun c hc => ?_, by simp [newline]⟩
  rw [newline, String.toList_ofList] at hc
  rcases List.mem_cons.mp hc with rfl | hc
  · simp
  · simp [(List.mem_replicate.mp hc).2]

/-- The texts of items, joined behind commas and the same gap. -/
theorem toList_join_gap (gap t : String) (ts : List String) :
    (Text.join ("," ++ gap) (t :: ts)).toList =
      t.toList ++ others gap.toList (ts.map String.toList) := by
  simp [Text.toList_join_cons, others, List.flatMap_map]

theorem spells_joined_arr {write : Json → String} {gap close : String} (hne : vs ≠ [])
    (h : ∀ v ∈ vs, Spells v (write v).toList) (hgap : Gap gap.toList) (hclose : Gap close.toList) :
    Spells (.arr vs)
      ("[" ++ gap ++ Text.join ("," ++ gap) (vs.map write) ++ close ++ "]").toList := by
  cases vs with
  | nil => exact absurd rfl hne
  | cons v vs =>
    obtain ⟨hv, hvs⟩ := List.forall_mem_cons.mp h
    have hspell := spells_arr hv (List.forall₂_map_right_iff.mpr (List.forall₂_same.mpr hvs))
      hgap hclose
    simpa [toList_join_gap, Function.comp_def] using hspell

theorem spells_joined_obj {write : String × Json → String} {gap close : String} (hne : fs ≠ [])
    (h : ∀ f ∈ fs, FieldSpells f (write f).toList) (hkeys : (fs.map Prod.fst).Nodup)
    (hgap : Gap gap.toList) (hclose : Gap close.toList) :
    Spells (.obj fs)
      ("\x7b" ++ gap ++ Text.join ("," ++ gap) (fs.map write) ++ close ++ "\x7d").toList := by
  cases fs with
  | nil => exact absurd rfl hne
  | cons f fs =>
    obtain ⟨hf, hfs⟩ := List.forall_mem_cons.mp h
    have hspell := spells_obj hf (List.forall₂_map_right_iff.mpr (List.forall₂_same.mpr hfs))
      hkeys hgap hclose
    simpa [toList_join_gap, Function.comp_def] using hspell

theorem compactItems_eq_map : compactItems vs = vs.map compact := by
  induction vs with
  | nil => rfl
  | cons v vs ih => rw [compactItems, ih, List.map_cons]

theorem compactFields_eq_map :
    compactFields fs = fs.map fun f => quoted f.1 ++ ":" ++ compact f.2 := by
  induction fs with
  | nil => rfl
  | cons f fs ih => rw [compactFields, ih, List.map_cons]

theorem prettyItems_eq_map {d : Nat} : prettyItems d vs = vs.map (prettyAt d) := by
  induction vs with
  | nil => rfl
  | cons v vs ih => rw [prettyItems, ih, List.map_cons]

theorem prettyFields_eq_map {d : Nat} :
    prettyFields d fs = fs.map fun f => quoted f.1 ++ ": " ++ prettyAt d f.2 := by
  induction fs with
  | nil => rfl
  | cons f fs ih => rw [prettyFields, ih, List.map_cons]

/-- The compact text of a value is read as this value. -/
theorem spells_compact (hd : v.Distinct) (hx : v.NumbersReadBack) :
    Spells v (compact v).toList := by
  induction v using induction_nested with
  | null => exact spells_null
  | bool b =>
    rw [compact]
    exact spells_bool b
  | num x =>
    rw [compact]
    exact spells_num (hx.self x rfl)
  | str s =>
    rw [compact]
    exact spells_str s
  | arr vs ih =>
    have hitems : ∀ v ∈ vs, Spells v (compact v).toList := fun v hv =>
      ih v hv ((every_arr.mp hd).2 v hv) ((every_arr.mp hx).2 v hv)
    rcases eq_or_ne vs [] with rfl | hne
    · exact spells_empty_arr
    · have hspell : Spells (.arr vs)
          ("[" ++ "" ++ Text.join ("," ++ "") (vs.map compact) ++ "" ++ "]").toList :=
        spells_joined_arr hne hitems gap_nil gap_nil
      simpa [compact, compactItems_eq_map] using hspell
  | obj fs ih =>
    have hfields : ∀ f ∈ fs, FieldSpells f (quoted f.1 ++ ":" ++ compact f.2).toList := by
      intro f hf
      have hspell := ih f hf ((every_obj.mp hd).2 f hf) ((every_obj.mp hx).2 f hf)
      simpa using FieldSpells.of_value (k := f.1) gap_nil.blank hspell
    rcases eq_or_ne fs [] with rfl | hne
    · exact spells_empty_obj
    · have hspell : Spells (.obj fs) ("\x7b" ++ "" ++ Text.join ("," ++ "")
          (fs.map fun f => quoted f.1 ++ ":" ++ compact f.2) ++ "" ++ "\x7d").toList :=
        spells_joined_obj hne hfields (every_obj.mp hd).1 gap_nil gap_nil
      simpa [compact, compactFields_eq_map] using hspell

/-- The pretty text of a value is read as this value. -/
theorem spells_prettyAt (d : Nat) (hd : v.Distinct) (hx : v.NumbersReadBack) :
    Spells v (prettyAt d v).toList := by
  induction v using induction_nested generalizing d with
  | null => exact spells_null
  | bool b =>
    rw [prettyAt]
    exact spells_bool b
  | num x =>
    rw [prettyAt]
    exact spells_num (hx.self x rfl)
  | str s =>
    rw [prettyAt]
    exact spells_str s
  | arr vs ih =>
    have hitems : ∀ v ∈ vs, Spells v (prettyAt (d + 1) v).toList := fun v hv =>
      ih v hv (d + 1) ((every_arr.mp hd).2 v hv) ((every_arr.mp hx).2 v hv)
    rcases eq_or_ne vs [] with rfl | hne
    · exact spells_empty_arr
    · rw [prettyAt, prettyItems_eq_map, spread, if_neg (by simpa using hne)]
      exact spells_joined_arr hne hitems (gap_newline _) (gap_newline _)
  | obj fs ih =>
    have hfields : ∀ f ∈ fs, FieldSpells f (quoted f.1 ++ ": " ++ prettyAt (d + 1) f.2).toList := by
      intro f hf
      have hspell := ih f hf (d + 1) ((every_obj.mp hd).2 f hf) ((every_obj.mp hx).2 f hf)
      simpa using FieldSpells.of_value (k := f.1) (b := [' ']) (by simp [Blank]) hspell
    rcases eq_or_ne fs [] with rfl | hne
    · exact spells_empty_obj
    · rw [prettyAt, prettyFields_eq_map, spread, if_neg (by simpa using hne)]
      exact spells_joined_obj hne hfields (every_obj.mp hd).1 (gap_newline _) (gap_newline _)

/-- A text that stands alone or before blanks is read. -/
theorem Spells.parse? {s : String} (h : Spells v s.toList) (hdepth : v.depth ≤ maxDepth)
    (blanks : String) (hb : Gap blanks.toList) : parse? (s ++ blanks) = some v := by
  have hstops : Stops blanks.toList := fun c hc => by simp [hb.stops c hc]
  have hfuel : 2 * s.toList.length ≤ 2 * (s ++ blanks).length + 2 := by
    rw [← String.length_toList, String.toList_append, List.length_append]
    omega
  have hnil : skipBlanks blanks.toList = [] := by
    have happend : skipBlanks (blanks.toList ++ []) = skipBlanks [] := skipBlanks_append hb.blank
    rwa [List.append_nil] at happend
  rw [Json.parse?, String.toList_append, h.reads hdepth hfuel hstops]
  simp [hnil]

theorem parse?_compact (h : Readable maxDepth v) (hx : v.NumbersReadBack) :
    parse? (compact v) = some v := by
  have hread := (spells_compact h.1 hx).parse? h.2 "" gap_nil
  rwa [String.append_empty] at hread

theorem parse?_pretty (h : Readable maxDepth v) (hx : v.NumbersReadBack) :
    parse? (pretty v ++ "\n") = some v :=
  (spells_prettyAt 0 h.1 hx).parse? h.2 "\n" (gap_newline 0)

end Printers

end Json

end ServiceContract
