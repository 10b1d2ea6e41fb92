import ServiceContract.Proofs.Schema.Shapes
import ServiceContract.StatusError.Catalog

/-! # Codes and ranks

The variants of an enum are numbered by one rule, whether they are the errors of a catalog or the
members of an enumeration: both are read by loops that count on behind each variant, also one that
they pass over. The code of an error is the number of its variant, and so is the rank of a member,
so a catalog and a schema agree on each variant whose name no later variant has.
-/

namespace ServiceContract

open Source

/-- The numbers of variants, counted from a start: a written number counts if it folds to a whole
number, and any other variant has the number after the one before it. There is none after the
greatest one, which is used again. -/
structure Numbering (s : Scope) (start : Int) (variants : List Variant) (number : Nat → Int) :
    Prop where
  written : ∀ i v n, variants[i]? = some v → v.discriminant.bind s.evalInt = some n → number i = n
  first : ∀ v, variants[0]? = some v → v.discriminant.bind s.evalInt = none → number 0 = start
  counted : ∀ i v, variants[i + 1]? = some v → v.discriminant.bind s.evalInt = none →
    number (i + 1) = min (number i + 1) Int64.maxValue.toInt

/-- Of the entries that are set for a key one after the other, the last one is kept. -/
theorem foldl_setKey_last {κ α : Type} [DecidableEq κ] {entries before after : List (κ × α)}
    {key : κ} {value : α} (h : entries = before ++ (key, value) :: after)
    (hlast : ∀ entry ∈ after, entry.1 ≠ key) :
    ∃ l l', entries.foldl (fun acc (k, v) => setKey k v acc) [] = l ++ (key, value) :: l' ∧
      ∀ entry ∈ l, entry.1 ≠ key := by
  have hset : (entries.foldl (fun acc (k, v) => setKey k v acc) []).lookup key = some value := by
    rw [lookup_foldl_setKey, List.lookup_nil, Option.or_none, h]
    refine List.lookup_eq_some_iff.mpr
      ⟨after.reverse, before.reverse, by simp, fun entry hentry => ?_⟩
    simpa using (hlast entry (List.mem_reverse.mp hentry)).symm
  obtain ⟨l, l', heq, hfirst⟩ := List.lookup_eq_some_iff.mp hset
  exact ⟨l, l', heq, fun entry hentry => (bne_iff_ne.mp (hfirst entry hentry)).symm⟩

namespace EnumMember

variable {s : Scope} {start : Int} {variants : List Variant}

/-- The number at a position. -/
def numberAt (s : Scope) (start : Int) (variants : List Variant) (i : Nat) : Int :=
  ((discriminants s start variants)[i]?.map Prod.snd).getD 0

theorem discriminants_eq_map_zipIdx :
    discriminants s start variants =
      variants.zipIdx.map fun (v, i) => (v, numberAt s start variants i) := by
  refine List.ext_getElem? fun i => ?_
  have hfst : variants[i]? = ((discriminants s start variants)[i]?).map Prod.fst := by
    rw [← List.getElem?_map, map_fst_discriminants]
  rw [List.getElem?_map, List.getElem?_zipIdx, hfst, Nat.zero_add]
  cases h : (discriminants s start variants)[i]? with
  | none => rfl
  | some e => simp [numberAt, h]

theorem numbering_numberAt : Numbering s start variants (numberAt s start variants) := by
  induction variants generalizing start with
  | nil => exact ⟨nofun, nofun, nofun⟩
  | cons v vs ih =>
    have hzero : numberAt s start (v :: vs) 0 = (v.discriminant.bind s.evalInt).getD start := rfl
    have hsucc (i : Nat) : numberAt s start (v :: vs) (i + 1) =
        numberAt s (following (numberAt s start (v :: vs) 0)) vs i := rfl
    have hrest := @ih (following (numberAt s start (v :: vs) 0))
    constructor
    · rintro (_ | i) w n hw hn
      · cases hw
        rw [hzero, hn, Option.getD_some]
      · exact hsucc i ▸ hrest.written i w n hw hn
    · rintro w ⟨⟩ hn
      rw [hzero, hn, Option.getD_none]
    · rintro (_ | i) w hw hn
      · exact hsucc 0 ▸ hrest.first w hw hn
      · rw [hsucc, hsucc]
        exact hrest.counted i w hw hn

/-- A loop over the variants that counts on behind each of them, whatever it does with it, is one
over the variants with their numbers. -/
theorem foldl_discriminants {β : Type} (f : β → Variant → Int → β) (b : β) :
    ((variants.foldl (fun (next, b) v =>
        let n := (v.discriminant.bind s.evalInt).getD next
        (following n, f b v n)) (start, b)).2) =
      (discriminants s start variants).foldl (fun b (v, n) => f b v n) b := by
  induction variants generalizing start b with
  | nil => rfl
  | cons v vs ih => exact ih _

/-- The members of an enum are read by a loop that counts on for a variant that is not serialized,
and passes it over. -/
theorem ofVariants_eq_loop {item : EnumItem} : ofVariants s item =
    if item.variants.isEmpty || item.variants.any (fun v => !v.fields.isUnit) then none
    else some (item.variants.foldl (fun (next, members) v =>
      let rank := (v.discriminant.bind s.evalInt).getD next
      (min (rank + 1) Int64.maxValue.toInt,
        if (SerialAttrs.ofAttrs v.attrs).skip then members
        else members ++ [⟨v.name, .str (serializedName (.ofAttrs item.attrs) v), .int rank,
          (Docs.ofAttrs v.attrs).summary⟩])) (0, [])).2 := by
  let member (v : Variant) (rank : Int) : EnumMember :=
    ⟨v.name, .str (serializedName (.ofAttrs item.attrs) v), .int rank,
      (Docs.ofAttrs v.attrs).summary⟩
  have hmap (entries : List (Variant × Int)) : entries.map (fun e => member e.1 e.2) =
      entries.foldl (fun members e => members ++ [member e.1 e.2]) [] := by
    rw [List.foldl_append_eq_append, List.nil_append, ← List.flatMap_def, ← List.map_eq_flatMap]
  have hloop := @foldl_discriminants s 0 item.variants _ (fun members v rank =>
    if (SerialAttrs.ofAttrs v.attrs).skip then members else members ++ [member v rank]) []
  unfold ofVariants
  refine ite_congr rfl (fun _ => rfl) fun _ => congrArg some (.trans ?_ hloop.symm)
  refine (hmap _).trans (List.foldl_filter.trans ?_)
  congr 1
  funext members ⟨v, rank⟩
  by_cases hskip : (SerialAttrs.ofAttrs v.attrs).skip = true <;> simp [hskip]

/-- The members of an enum are its variants that are serialized, ranked by their numbers. -/
theorem ofVariants_ranked {item : EnumItem} (hne : item.variants ≠ [])
    (hunit : ∀ v ∈ item.variants, v.fields.isUnit = true) :
    ∃ members, ofVariants s item = some members ∧ members.map (fun m => (m.name, m.rank)) =
      (item.variants.zipIdx.filter fun (v, _) => !(SerialAttrs.ofAttrs v.attrs).skip).map
        fun (v, i) => (v.name, .int (numberAt s 0 item.variants i)) := by
  have hsome : ofVariants s item ≠ none := by
    rw [Ne, ofVariants_eq_none, not_or]
    exact ⟨hne, fun ⟨v, hv, hfields⟩ => by simp [hunit v hv] at hfields⟩
  obtain ⟨members, hm⟩ := Option.ne_none_iff_exists'.mp hsome
  refine ⟨members, hm, ?_⟩
  unfold ofVariants at hm
  dsimp only at hm
  split at hm
  · cases hm
  · cases hm
    rw [List.map_map, discriminants_eq_map_zipIdx, List.filter_map, List.map_map]
    rfl

end EnumMember

namespace ErrorCatalog

variable {p : Program} {d : Declared EnumItem}

theorem ofEnum_of_unit (hunit : ∀ v ∈ d.item.variants, v.fields.isUnit = true) :
    ofEnum p d = d.item.variants.zipIdx.map fun (v, i) =>
      ((qualify d.module d.item.name, v.name),
        ofVariant v (EnumMember.numberAt ⟨p, d.module, some d.item.name⟩ 0 d.item.variants i)) := by
  unfold ofEnum
  dsimp only
  rw [EnumMember.discriminants_eq_map_zipIdx, List.filter_map, List.map_map,
    List.filter_eq_self.mpr]
  · rfl
  · rintro ⟨v, i⟩ hv
    exact hunit v (List.mem_of_getElem? (List.mk_mem_zipIdx_iff_getElem?.mp hv))

/-- The catalog is read by a loop over the marked enums, in which one over the variants counts on
for a variant with fields, and passes it over. -/
theorem ofProgram_eq_loop (p : Program) :
    ofProgram p = (p.enums.filter fun d => isMarked d.item).foldl (fun errors d =>
      (d.item.variants.foldl (fun (next, errors) v =>
        let code := (v.discriminant.bind (Scope.evalInt ⟨p, d.module, some d.item.name⟩)).getD next
        (min (code + 1) Int64.maxValue.toInt,
          if v.fields.isUnit then
            setKey (qualify d.module d.item.name, v.name) (ofVariant v code) errors
          else errors)) (0, errors)).2) [] := by
  rw [ofProgram, List.foldl_flatMap]
  congr 1
  funext errors d
  rw [ofEnum, List.foldl_map, List.foldl_filter]
  exact (EnumMember.foldl_discriminants (fun errors v code =>
    if v.fields.isUnit then setKey (qualify d.module d.item.name, v.name) (ofVariant v code) errors
    else errors) errors).symm

theorem enum_of_mem_ofEnum {entry : (String × String) × StatusError} (h : entry ∈ ofEnum p d) :
    entry.1.1 = qualify d.module d.item.name := by
  obtain ⟨_, -, rfl⟩ := List.mem_map.mp h
  rfl

/-- The catalog has the variant of an enum that no variant of the same name follows. -/
theorem error?_of_last (hd : d ∈ p.enums)
    (hnames : (p.enums.map fun d => qualify d.module d.item.name).Nodup)
    (hmarked : isMarked d.item = true) (hunit : ∀ v ∈ d.item.variants, v.fields.isUnit = true)
    {before after : List Variant} {v : Variant} (hsplit : d.item.variants = before ++ v :: after)
    (hlast : ∀ w ∈ after, w.name ≠ v.name) :
    (ofProgram p).error? (qualify d.module d.item.name) v.name = some (ofVariant v
      (EnumMember.numberAt ⟨p, d.module, some d.item.name⟩ 0 d.item.variants before.length)) := by
  obtain ⟨es, es', hes⟩ := List.append_of_mem hd
  have hothers : ∀ e ∈ es', qualify e.module e.item.name ≠ qualify d.module d.item.name := by
    rw [hes, List.map_append, List.map_cons] at hnames
    have hnotin := (List.nodup_cons.mp (List.nodup_append.mp hnames).2.1).1
    exact fun e he heq => hnotin (List.mem_map.mpr ⟨e, he, heq⟩)
  have hentries := ofEnum_of_unit (p := p) hunit
  generalize EnumMember.numberAt ⟨p, d.module, some d.item.name⟩ 0 d.item.variants = number
    at hentries ⊢
  rw [hsplit, List.zipIdx_append, List.map_append, List.zipIdx_cons, List.map_cons] at hentries
  have hall : (p.enums.filter fun d => isMarked d.item).flatMap (ofEnum p) =
      (es.filter fun d => isMarked d.item).flatMap (ofEnum p) ++
        (ofEnum p d ++ (es'.filter fun d => isMarked d.item).flatMap (ofEnum p)) := by
    rw [hes, List.filter_append, List.filter_cons, if_pos hmarked, List.flatMap_append,
      List.flatMap_cons]
  rw [hentries, List.append_assoc, List.cons_append, ← List.append_assoc, Nat.zero_add] at hall
  obtain ⟨l, l', hkept, hfirst⟩ := foldl_setKey_last hall fun entry hentry => by
    rcases List.mem_append.mp hentry with hentry | hentry
    · obtain ⟨⟨w, i⟩, hw, rfl⟩ := List.mem_map.mp hentry
      have hw := List.mem_of_getElem? (List.mk_mem_zipIdx_iff_le_and_getElem?_sub.mp hw).2
      simpa using hlast w hw
    · obtain ⟨e, he, hentry⟩ := List.mem_flatMap.mp hentry
      intro heq
      refine hothers e (List.mem_of_mem_filter he) ?_
      rw [← enum_of_mem_ofEnum hentry, heq]
  rw [error?, ofProgram, hkept]
  exact List.lookup_eq_some_iff.mpr ⟨l, l', rfl, fun entry hentry =>
    bne_iff_ne.mpr (hfirst entry hentry).symm⟩

/-- In a program whose enums have different qualified names, the code of an error and the rank of
the member that the same variant makes are both the number of the variant. The catalog has one error
for a name, that of the last variant with the name. -/
theorem codes_are_ranks (hd : d ∈ p.enums)
    (hnames : (p.enums.map fun d => qualify d.module d.item.name).Nodup)
    (hmarked : isMarked d.item = true) (hunit : ∀ v ∈ d.item.variants, v.fields.isUnit = true) :
    let scope : Scope := ⟨p, d.module, some d.item.name⟩
    ∃ number, Numbering scope 0 d.item.variants number ∧
      (d.item.variants ≠ [] → ∃ members, EnumMember.ofVariants scope d.item = some members ∧
        members.map (fun m => (m.name, m.rank)) =
          (d.item.variants.zipIdx.filter fun (v, _) => !(SerialAttrs.ofAttrs v.attrs).skip).map
            fun (v, i) => (v.name, .int (number i))) ∧
      ∀ before v after, d.item.variants = before ++ v :: after →
        (∀ w ∈ after, w.name ≠ v.name) →
        ((ofProgram p).error? (qualify d.module d.item.name) v.name).map StatusError.code =
          some (number before.length) := by
  intro scope
  refine ⟨_, EnumMember.numbering_numberAt, fun hne => EnumMember.ofVariants_ranked hne hunit,
    fun before v after hsplit hlast => ?_⟩
  rw [error?_of_last hd hnames hmarked hunit hsplit hlast]
  rfl

section Programs

def markedEnum (variants : List Variant) : Declared EnumItem :=
  ⟨[], ⟨[⟨{ segments := ["status_error"] }, .word⟩], "UserErr", [], variants⟩⟩

def skipped : Attr := ⟨{ segments := ["serde"] }, .list [.ident "skip"]⟩

/-- A number that is written with a constant, a counted one, one that does not fold, the greatest
one, and the one after it. -/
def mixed : Declared EnumItem := markedEnum
  [⟨[], "Invalid", .unit, some (.binary .add (.path { segments := ["BASE"] } [])
      (.lit (.int false 1)))⟩,
    ⟨[], "Duplicated", .unit, none⟩,
    ⟨[skipped], "Hidden", .unit, some (.call (.path { segments := ["code"] } []) [])⟩,
    ⟨[], "Last", .unit, some (.lit (.int false 9223372036854775807))⟩,
    ⟨[], "Other", .unit, none⟩]

def mixedProgram : Program where
  enums := [mixed]
  consts := [⟨[], none, ⟨[], "BASE", .path ["i64"] [], .lit (.int false 400000000)⟩⟩]

theorem codes_are_ranks_mixed :
    (mixed ∈ mixedProgram.enums ∧
      (mixedProgram.enums.map fun d => qualify d.module d.item.name).Nodup ∧
      isMarked mixed.item = true ∧ ∀ v ∈ mixed.item.variants, v.fields.isUnit = true) ∧
    ∃ number, Numbering ⟨mixedProgram, [], some "UserErr"⟩ 0 mixed.item.variants number ∧
      ((ofProgram mixedProgram).error? "UserErr" "Other").map StatusError.code = some (number 4) ∧
      ∃ members, EnumMember.ofVariants ⟨mixedProgram, [], some "UserErr"⟩ mixed.item =
          some members ∧
        members.map (fun m => (m.name, m.rank)) =
          [("Invalid", .int (number 0)), ("Duplicated", .int (number 1)), ("Last", .int (number 3)),
           ("Other", .int (number 4))] := by
  have hd : mixed ∈ mixedProgram.enums := List.mem_singleton_self _
  have hnames : (mixedProgram.enums.map fun d => qualify d.module d.item.name).Nodup := by decide
  have hmarked : isMarked mixed.item = true := by decide
  have hunit : ∀ v ∈ mixed.item.variants, v.fields.isUnit = true := by
    simp [mixed, markedEnum, Fields.isUnit]
  obtain ⟨number, hnumber, hmembers, hcode⟩ := codes_are_ranks hd hnames hmarked hunit
  obtain ⟨members, hm, hranks⟩ := hmembers (List.cons_ne_nil _ _)
  refine ⟨⟨hd, hnames, hmarked, hunit⟩, number, hnumber, ?_, members, hm, hranks.trans ?_⟩
  · exact hcode [_, _, _, _] _ [] rfl nofun
  · rfl

/-- Two variants have one name, of which only one is compiled. The second one is not serialized, and
the catalog has its code for the first one. -/
theorem code_of_namesake :
    let d := markedEnum
      [⟨[⟨{ segments := ["cfg"] }, .list [.ident "unix"]⟩], "NotFound", .unit,
          some (.lit (.int false 404000001))⟩,
        ⟨[⟨{ segments := ["cfg"] }, .list [.ident "windows"]⟩, skipped], "NotFound", .unit,
          some (.lit (.int false 404000002))⟩]
    let p : Program := { enums := [d] }
    (p.enums.map fun d => qualify d.module d.item.name).Nodup ∧ isMarked d.item = true ∧
    (∀ v ∈ d.item.variants, v.fields.isUnit = true) ∧
    EnumMember.ofVariants ⟨p, [], some "UserErr"⟩ d.item =
      some [⟨"NotFound", .str "NotFound", .int 404000001, none⟩] ∧
    ((ofProgram p).error? "UserErr" "NotFound").map StatusError.code = some 404000002 := by
  exact ⟨by decide, by decide, by simp [markedEnum, Fields.isUnit], rfl, rfl⟩

end Programs

end ErrorCatalog

end ServiceContract
