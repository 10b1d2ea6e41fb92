import ServiceContract.Proofs.Operator.Located
import Mathlib.Data.Prod.Lex
import Mathlib.Logic.Relation
import Mathlib.Tactic.SplitIfs

/-! # The traversal of an operator

The search for the located fields of an operator goes depth first: a flattened field is left for
the fields of its struct, and a struct is entered once. What the search gives is told by the
fields of this traversal alone. Structs are told apart by their qualified names.
-/

namespace ServiceContract

open Source Relation

namespace LocatedField

/-- What a traversal comes to: a struct, or a field that stands in one. -/
inductive Stop
  | struct (d : Declared StructItem)
  | field (d : Declared StructItem) (field : Field)

def namedFields (d : Declared StructItem) : List Field :=
  match d.item.fields with
  | .named fields => fields
  | _ => []

/-- A field that is not skipped leads to the struct that it is flattened to, or to itself. -/
def stop? (p : Program) (d : Declared StructItem) (field : Field) : Option Stop :=
  if (SerialAttrs.ofAttrs field.attrs).skip then none
  else if isFlattened field then (flattened? p d.module field.type).map .struct
  else some (.field d field)

/-- Where the fields of a struct lead, in the order of their declaration. -/
def stops (p : Program) (d : Declared StructItem) : List Stop :=
  (namedFields d).filterMap (stop? p d)

/-- A struct leads to those that are flattened into it. -/
def Leads (p : Program) (d e : Declared StructItem) : Prop := .struct e ∈ stops p d

/-- The name by which a search knows a struct. -/
def nameOf (d : Declared StructItem) : String := qualify d.module d.item.name

/-- The place where a struct is declared. -/
def placeOf (d : Declared StructItem) : List String × String := (d.module, d.item.name)

/-- Structs of one qualified name stand in one module. -/
def NamesTellApart (p : Program) : Prop :=
  ∀ a ∈ p.structs, ∀ b ∈ p.structs, nameOf a = nameOf b → placeOf a = placeOf b

/-- The other keys. -/
def without {κ : Type} [DecidableEq κ] (k : κ) (ks : List κ) : List κ := ks.filter (· ≠ k)

theorem length_without_lt {κ : Type} [DecidableEq κ] {k : κ} {ks : List κ} (h : k ∈ ks) :
    (without k ks).length < ks.length :=
  List.length_filter_lt_length_iff_exists.mpr ⟨k, h, by simp⟩

/-- The fields of the traversal that has some stops ahead of it; only structs whose key is unseen
are still entered. -/
def traverse {κ : Type} [DecidableEq κ] (key : Declared StructItem → κ) (p : Program)
    (unseen : List κ) : List Stop → List (Declared StructItem × Field)
  | [] => []
  | .field d field :: ahead => (d, field) :: traverse key p unseen ahead
  | .struct d :: ahead =>
    if key d ∈ unseen then traverse key p (without (key d) unseen) (stops p d ++ ahead)
    else traverse key p unseen ahead
termination_by ahead => (unseen.length, ahead.length)
decreasing_by
  · exact Prod.Lex.right _ (by simp)
  · exact Prod.Lex.left _ _ (length_without_lt ‹_›)
  · exact Prod.Lex.right _ (by simp)

/-- The fields of a struct and of those that it leads to, each entered once. -/
def traversal {κ : Type} [DecidableEq κ] (key : Declared StructItem → κ) (p : Program)
    (d : Declared StructItem) : List (Declared StructItem × Field) :=
  traverse key p (p.structs.map key) [.struct d]

/-- A field with what its attribute says of it, if that names a location. -/
def located? (d : Declared StructItem) (field : Field) : Option LocatedField :=
  ((ParamAttr.ofAttrs field.attrs).bind fun param => param.location.map (param, ·)).map
    fun (param, location) =>
      { field, module := d.module, container := .ofAttrs d.item.attrs, param, location }

/-- A public field without a location. -/
def lacksLocation (d : Declared StructItem) (field : Field) : Bool :=
  field.exported && (located? d field).isNone

/-- The located ones of some fields, or the first public field that has no location. -/
def report (operator : String) (fields : List (Declared StructItem × Field)) :
    Except Error (List LocatedField) :=
  match fields.find? fun x => lacksLocation x.1 x.2 with
  | some (_, field) => .error (.missingLocation operator (field.name.getD ""))
  | none => .ok (fields.filterMap fun x => located? x.1 x.2)

section Report

variable {operator : String} {fields fields' : List (Declared StructItem × Field)}
  {found : List LocatedField}

theorem report_append_ok (h : report operator fields = .ok found) :
    report operator (fields ++ fields') = (report operator fields').map (found ++ ·) := by
  unfold report at h ⊢
  split at h
  · cases h
  · next hnone =>
    cases h
    rw [List.find?_append, hnone, Option.none_or, List.filterMap_append]
    split <;> rfl

theorem report_cons_located {d : Declared StructItem} {field : Field} {site : LocatedField}
    (h : located? d field = some site) :
    report operator ((d, field) :: fields) = (report operator fields).map (site :: ·) := by
  have hfirst : report operator [(d, field)] = .ok [site] := by simp [report, lacksLocation, h]
  exact report_append_ok hfirst

theorem report_cons_hidden {d : Declared StructItem} {field : Field}
    (h : located? d field = none) (he : field.exported = false) :
    report operator ((d, field) :: fields) = report operator fields := by
  simp [report, lacksLocation, h, he]

theorem report_cons_missing {d : Declared StructItem} {field : Field}
    (h : lacksLocation d field = true) :
    report operator ((d, field) :: fields) =
      .error (.missingLocation operator (field.name.getD "")) := by
  simp [report, h]

end Report

/-- A search from some visited names gathers what the stops ahead of it stand for; the names
visited after it. -/
inductive Gathers (p : Program) :
    List String → List Stop → List LocatedField → List String → Prop
  | done {visited} : Gathers p visited [] [] visited
  | known {visited d ahead found visited'} : nameOf d ∈ visited →
      Gathers p visited ahead found visited' →
      Gathers p visited (.struct d :: ahead) found visited'
  | fresh {visited d ahead found visited' found' visited''} : nameOf d ∉ visited →
      Gathers p (nameOf d :: visited) (stops p d) found visited' →
      Gathers p visited' ahead found' visited'' →
      Gathers p visited (.struct d :: ahead) (found ++ found') visited''
  | located {visited d field ahead site found visited'} : located? d field = some site →
      Gathers p visited ahead found visited' →
      Gathers p visited (.field d field :: ahead) (site :: found) visited'
  | hidden {visited d field ahead found visited'} : located? d field = none →
      field.exported = false → Gathers p visited ahead found visited' →
      Gathers p visited (.field d field :: ahead) found visited'

/-- A search breaks off with an error: at a field, inside a struct, or after some stops. -/
inductive Breaks (p : Program) (operator : String) : List String → List Stop → Error → Prop
  | here {visited d field} : lacksLocation d field = true →
      Breaks p operator visited [.field d field]
        (.missingLocation operator (field.name.getD ""))
  | inside {visited d e} : nameOf d ∉ visited →
      Breaks p operator (nameOf d :: visited) (stops p d) e →
      Breaks p operator visited [.struct d] e
  | before {visited ahead ahead' e} : Breaks p operator visited ahead e →
      Breaks p operator visited (ahead ++ ahead') e
  | after {visited ahead found visited' ahead' e} : Gathers p visited ahead found visited' →
      Breaks p operator visited' ahead' e → Breaks p operator visited (ahead ++ ahead') e

/-- A search has this outcome. -/
def Ends (p : Program) (operator : String) (visited : List String) (ahead : List Stop) :
    Except Error (List LocatedField × List String) → Prop
  | .ok (found, visited') => Gathers p visited ahead found visited'
  | .error e => Breaks p operator visited ahead e

section Rules

variable {p : Program} {operator : String} {visited visited' : List String}
  {found found' : List LocatedField} {ahead ahead' : List Stop} {d : Declared StructItem}
  {field : Field} {n : Nat}

theorem Gathers.append {visited'' : List String} (h : Gathers p visited ahead found visited')
    (h' : Gathers p visited' ahead' found' visited'') :
    Gathers p visited (ahead ++ ahead') (found ++ found') visited'' := by
  induction h with
  | done => exact h'
  | known hk _ ih => exact .known hk (ih h')
  | fresh hk hin _ _ ih => simpa using Gathers.fresh hk hin (ih h')
  | located hl _ ih => exact .located hl (ih h')
  | hidden hl he _ ih => exact .hidden hl he (ih h')

theorem Gathers.subset (h : Gathers p visited ahead found visited') : visited ⊆ visited' := by
  induction h with
  | done => exact List.Subset.refl _
  | known _ _ ih => exact ih
  | fresh _ _ _ ih ih' => exact fun k hk => ih' (ih (List.mem_cons_of_mem _ hk))
  | located _ _ ih => exact ih
  | hidden _ _ _ ih => exact ih

/-- The names of structs of the program that have not been visited. -/
def unseen (p : Program) (visited : List String) : List String :=
  (p.structs.map nameOf).filter (· ∉ visited)

theorem unseen_nil : unseen p [] = p.structs.map nameOf := by simp [unseen]

theorem unseen_cons (k : String) : unseen p (k :: visited) = without k (unseen p visited) := by
  rw [unseen, unseen, without, List.filter_filter]
  refine List.filter_congr fun d _ => ?_
  simp

theorem nameOf_mem_unseen (hd : d ∈ p.structs) :
    nameOf d ∈ unseen p visited ↔ nameOf d ∉ visited := by
  simp [unseen, List.mem_map_of_mem hd]

theorem length_unseen_cons_lt (hd : d ∈ p.structs) (h : nameOf d ∉ visited) :
    (unseen p (nameOf d :: visited)).length < (unseen p visited).length := by
  rw [unseen_cons]
  exact length_without_lt ((nameOf_mem_unseen hd).mpr h)

theorem Gathers.length_unseen_le (h : Gathers p visited ahead found visited') :
    (unseen p visited').length ≤ (unseen p visited).length := by
  refine (List.monotone_filter_right _ fun d hd => ?_).length_le
  simp only [decide_eq_true_eq] at hd ⊢
  exact fun hv => hd (h.subset hv)

theorem findType_of_flattened? {module : List String} {t : TypeExpr}
    (h : flattened? p module t = some d) :
    ∃ path, t.peel.asPath? = some path ∧ p.findType path module = some (.struct d) := by
  obtain ⟨path, hpath, hfound⟩ := Option.bind_eq_some_iff.mp h
  split at hfound <;> cases hfound
  next hfound => exact ⟨path, hpath, hfound⟩

theorem mem_structs_of_flattened? {module : List String} {t : TypeExpr}
    (h : flattened? p module t = some d) : d ∈ p.structs := by
  obtain ⟨path, -, hfound⟩ := findType_of_flattened? h
  exact Program.mem_structs_of_mem_types (Program.mem_types_of_findType hfound)

theorem field_mem_stops {e : Declared StructItem} :
    .field e field ∈ stops p d ↔ e = d ∧ field ∈ namedFields d ∧
      (SerialAttrs.ofAttrs field.attrs).skip = false ∧ isFlattened field = false := by
  rw [stops, List.mem_filterMap]
  constructor
  · rintro ⟨field', hmem, hstop⟩
    unfold stop? at hstop
    split_ifs at hstop with hskip hflat
    · simp at hstop
    · cases hstop
      exact ⟨rfl, hmem, by simpa using hskip, by simpa using hflat⟩
  · rintro ⟨rfl, hmem, hskip, hflat⟩
    exact ⟨field, hmem, by simp [stop?, hskip, hflat]⟩

theorem leads_iff {e : Declared StructItem} : Leads p d e ↔ ∃ field ∈ namedFields d,
    (SerialAttrs.ofAttrs field.attrs).skip = false ∧ isFlattened field = true ∧
      flattened? p d.module field.type = some e := by
  rw [Leads, stops, List.mem_filterMap]
  refine exists_congr fun field => and_congr_right fun _ => ?_
  unfold stop?
  split_ifs with hskip hflat
  · simp [hskip]
  · simp [hskip, hflat]
  · simp [hflat]

theorem mem_structs_of_leads {e : Declared StructItem} (h : Leads p d e) : e ∈ p.structs := by
  obtain ⟨_, -, -, -, hfound⟩ := leads_iff.mp h
  exact mem_structs_of_flattened? hfound

/-- The search of one field is that of the stop it leads to. -/
theorem ends_ofField {inner : Declared StructItem → Search (List LocatedField)}
    (h : ∀ e ∈ p.structs, Ends p operator visited [.struct e] ((inner e).run visited)) :
    Ends p operator visited (stop? p d field).toList
      ((ofField p operator inner d field).run visited) := by
  unfold ofField stop?
  split
  · exact .done
  · split
    · cases hf : flattened? p d.module field.type with
      | none => exact .done
      | some e => exact h e (mem_structs_of_flattened? hf)
    · split
      · next param location hparam =>
        exact .located (by rw [located?, hparam]; rfl) .done
      · next hparam =>
        have hl : located? d field = none := by rw [located?, hparam]; rfl
        split
        · next he => exact .here (by simp [lacksLocation, he, hl])
        · next he => exact .hidden hl (by simpa using he) .done

/-- The searches of some fields, one after the other. -/
theorem ends_mapM {f : Field → Search (List LocatedField)} {fields : List Field}
    (h : ∀ field ∈ fields, ∀ visited, (unseen p visited).length < n →
      Ends p operator visited (stop? p d field).toList ((f field).run visited))
    (hn : (unseen p visited).length < n) :
    Ends p operator visited (fields.filterMap (stop? p d))
      (((fields.mapM f).run visited).map fun x => (x.1.flatten, x.2)) := by
  induction fields generalizing visited with
  | nil => exact .done
  | cons field fields ih =>
    obtain ⟨hfield, hfields⟩ := List.forall_mem_cons.mp h
    have hstops : (field :: fields).filterMap (stop? p d) =
        (stop? p d field).toList ++ fields.filterMap (stop? p d) := by
      rw [List.filterMap_cons]
      cases stop? p d field <;> rfl
    have hfirst := hfield visited hn
    rw [hstops, List.mapM_cons, StateT.run_bind]
    rcases hx : (f field).run visited with e | ⟨found, visited'⟩
    · rw [hx] at hfirst
      exact .before hfirst
    · rw [hx] at hfirst
      have hrest := ih hfields (hfirst.length_unseen_le.trans_lt hn)
      show Ends p operator visited _ (Except.map _ (((fields.mapM f).run visited').bind _))
      rcases hy : (fields.mapM f).run visited' with e | ⟨founds, visited''⟩
      · rw [hy] at hrest
        exact .after hfirst hrest
      · rw [hy] at hrest
        exact hfirst.append hrest

theorem run_ofStruct_known (h : nameOf d ∈ visited) :
    (ofStruct p operator (n + 1) d).run visited = .ok ([], visited) := by
  have hc : visited.contains (qualify d.module d.item.name) = true :=
    List.contains_iff_mem.mpr h
  simp only [ofStruct, StateT.run_bind, StateT.run_get, pure_bind, hc, if_true]
  rfl

theorem run_ofStruct_fresh (h : nameOf d ∉ visited) :
    (ofStruct p operator (n + 1) d).run visited =
      (((namedFields d).mapM (ofField p operator (ofStruct p operator n) d)).run
        (nameOf d :: visited)).map fun x => (x.1.flatten, x.2) := by
  have hc : visited.contains (qualify d.module d.item.name) = false := by
    simpa [nameOf] using h
  simp only [ofStruct, StateT.run_bind, StateT.run_get, pure_bind, hc, Bool.false_eq_true, if_false,
    namedFields]
  cases d.item.fields with
  | named fields =>
    show Except.bind ((fields.mapM (ofField p operator (ofStruct p operator n) d)).run
      (nameOf d :: visited)) (fun x => .ok (x.1.flatten, x.2)) = Except.map _ (StateT.run _ _)
    cases (fields.mapM (ofField p operator (ofStruct p operator n) d)).run (nameOf d :: visited) <;>
      rfl
  | _ => rfl

/-- A search with more room than there are structs to enter follows the rules. -/
theorem ends_ofStruct (hd : d ∈ p.structs) (hn : (unseen p visited).length < n) :
    Ends p operator visited [.struct d] ((ofStruct p operator n d).run visited) := by
  induction n generalizing d visited with
  | zero => omega
  | succ n ih =>
    by_cases hk : nameOf d ∈ visited
    · rw [run_ofStruct_known hk]
      exact .known hk .done
    · have hlt := length_unseen_cons_lt hd hk
      have hin : Ends p operator (nameOf d :: visited) (stops p d) _ :=
        ends_mapM (n := n) (fun field _ visited hv => ends_ofField fun e he => ih he hv) (by omega)
      rw [run_ofStruct_fresh hk]
      rcases hx : ((namedFields d).mapM (ofField p operator (ofStruct p operator n) d)).run
        (nameOf d :: visited) with e | ⟨found, visited'⟩
      · rw [hx] at hin
        exact .inside hk hin
      · rw [hx] at hin
        have hfresh := Gathers.fresh hk hin .done
        rwa [List.append_nil] at hfresh

theorem ends_ofStruct_nil (hd : d ∈ p.structs) (hn : p.structs.length < n) :
    Ends p operator [] [.struct d] ((ofStruct p operator n d).run []) :=
  ends_ofStruct hd (by rwa [unseen_nil, List.length_map])

/-- Every struct among the stops is one of the program. -/
def Within (p : Program) (ahead : List Stop) : Prop := ∀ e, .struct e ∈ ahead → e ∈ p.structs

theorem within_stops : Within p (stops p d) := fun _ => mem_structs_of_leads

theorem within_append : Within p (ahead ++ ahead') ↔ Within p ahead ∧ Within p ahead' := by
  simp only [Within, List.mem_append, or_imp, forall_and]

theorem within_struct_cons :
    Within p (.struct d :: ahead) ↔ d ∈ p.structs ∧ Within p ahead := by
  simp [Within, or_imp, forall_and]

theorem within_field_cons : Within p (.field d field :: ahead) ↔ Within p ahead := by
  simp [Within]

theorem traverse_known (hd : d ∈ p.structs) (h : nameOf d ∈ visited) :
    traverse nameOf p (unseen p visited) (.struct d :: ahead) =
      traverse nameOf p (unseen p visited) ahead := by
  rw [traverse, if_neg]
  exact fun hmem => (nameOf_mem_unseen hd).mp hmem h

theorem traverse_fresh (hd : d ∈ p.structs) (h : nameOf d ∉ visited) :
    traverse nameOf p (unseen p visited) (.struct d :: ahead) =
      traverse nameOf p (unseen p (nameOf d :: visited)) (stops p d ++ ahead) := by
  rw [traverse, if_pos ((nameOf_mem_unseen hd).mpr h), unseen_cons]

/-- The traversal of stops that a search gets through begins with fields that give what was
gathered, and goes on where the search does. -/
theorem Gathers.traverse_eq (h : Gathers p visited ahead found visited') (hp : Within p ahead)
    (operator : String) (rest : List Stop) :
    ∃ fields, report operator fields = .ok found ∧
      traverse nameOf p (unseen p visited) (ahead ++ rest) =
        fields ++ traverse nameOf p (unseen p visited') rest := by
  induction h generalizing rest with
  | done => exact ⟨[], rfl, rfl⟩
  | known hk _ ih =>
    obtain ⟨hd, hp⟩ := within_struct_cons.mp hp
    rw [List.cons_append, traverse_known hd hk]
    exact ih hp rest
  | @fresh _ _ ahead _ _ _ _ hk _ _ ih ih' =>
    obtain ⟨hd, hp⟩ := within_struct_cons.mp hp
    obtain ⟨inner, hinner, hin⟩ := ih within_stops (ahead ++ rest)
    obtain ⟨outer, houter, hout⟩ := ih' hp rest
    refine ⟨inner ++ outer, ?_, ?_⟩
    · rw [report_append_ok hinner, houter]
      rfl
    · rw [List.cons_append, traverse_fresh hd hk, hin, hout, List.append_assoc]
  | @located _ d field _ _ _ _ hl _ ih =>
    obtain ⟨fields, hfields, heq⟩ := ih (within_field_cons.mp hp) rest
    refine ⟨(d, field) :: fields, ?_, ?_⟩
    · rw [report_cons_located hl, hfields]
      rfl
    · rw [List.cons_append, traverse, heq, List.cons_append]
  | @hidden _ d field _ _ _ hl he _ ih =>
    obtain ⟨fields, hfields, heq⟩ := ih (within_field_cons.mp hp) rest
    refine ⟨(d, field) :: fields, ?_, ?_⟩
    · rw [report_cons_hidden hl he, hfields]
    · rw [List.cons_append, traverse, heq, List.cons_append]

/-- The traversal of stops at which a search breaks off has the field that is reported. -/
theorem Breaks.report_eq {e : Error} (h : Breaks p operator visited ahead e)
    (hp : Within p ahead) (rest : List Stop) :
    report operator (traverse nameOf p (unseen p visited) (ahead ++ rest)) = .error e := by
  induction h generalizing rest with
  | here hl =>
    rw [List.cons_append, traverse, report_cons_missing hl]
  | inside hk _ ih =>
    obtain ⟨hd, -⟩ := within_struct_cons.mp hp
    rw [List.cons_append, traverse_fresh hd hk]
    exact ih within_stops rest
  | before _ ih =>
    rw [List.append_assoc]
    exact ih (within_append.mp hp).1 _
  | after hg _ ih =>
    obtain ⟨fields, hfields, heq⟩ := hg.traverse_eq (within_append.mp hp).1 operator (_ ++ rest)
    rw [List.append_assoc, heq, report_append_ok hfields, ih (within_append.mp hp).2 rest]
    rfl

theorem Ends.map_eq_report {r : Except Error (List LocatedField × List String)}
    (hd : d ∈ p.structs) (h : Ends p operator [] [.struct d] r) :
    r.map (·.1) = report operator (traversal nameOf p d) := by
  have hp : Within p [.struct d] := within_struct_cons.mpr ⟨hd, by simp [Within]⟩
  rw [traversal, ← unseen_nil, ← List.append_nil [Stop.struct d]]
  rcases r with e | ⟨found, visited'⟩
  · exact (Breaks.report_eq h hp []).symm
  · obtain ⟨fields, hfields, heq⟩ := Gathers.traverse_eq h hp operator []
    rw [heq, traverse, List.append_nil, hfields]
    rfl

end Rules

/-- Keys that tell the same structs apart make the same traversal. -/
theorem traverse_congr {κ κ' : Type} [DecidableEq κ] [DecidableEq κ']
    {key : Declared StructItem → κ} {key' : Declared StructItem → κ'} {p : Program}
    (hkey : ∀ a ∈ p.structs, ∀ b ∈ p.structs, key a = key b ↔ key' a = key' b)
    {unseen : List κ} {unseen' : List κ'}
    (hunseen : ∀ d ∈ p.structs, key d ∈ unseen ↔ key' d ∈ unseen')
    {ahead : List Stop} (hp : Within p ahead) :
    traverse key p unseen ahead = traverse key' p unseen' ahead := by
  fun_induction traverse key p unseen ahead generalizing unseen' with
  | case1 => rw [traverse]
  | case2 _ _ _ _ ih => rw [traverse, ih hunseen (within_field_cons.mp hp)]
  | case3 unseen d _ h ih =>
    obtain ⟨hd, hp⟩ := within_struct_cons.mp hp
    rw [traverse, if_pos ((hunseen d hd).mp h)]
    refine ih (fun e he => ?_) (within_append.mpr ⟨within_stops, hp⟩)
    simp only [without, List.mem_filter, decide_eq_true_eq]
    exact and_congr (hunseen e he) (not_congr (hkey e he d hd))
  | case4 unseen d _ h ih =>
    obtain ⟨hd, hp⟩ := within_struct_cons.mp hp
    rw [traverse, if_neg (mt (hunseen d hd).mpr h), ih hunseen hp]

/-- The search of an operator ends, however deep it may go. It fails exactly at the first public
field of the traversal that has no location, and gives the located fields of the traversal. If
qualified names tell structs apart, the traversal enters each struct once. -/
theorem all_eq_report {p : Program} {d : Declared StructItem} (operator : String)
    (hd : d ∈ p.structs) :
    let fields := traversal nameOf p d
    (∃ r, Ends p operator [] [.struct d] r) ∧
    (∀ r, Ends p operator [] [.struct d] r → r.map (·.1) = report operator fields) ∧
    all p operator d = report operator fields ∧
    (∀ n > p.structs.length,
      ((ofStruct p operator n d).run []).map (·.1) = report operator fields) ∧
    (NamesTellApart p → fields = traversal placeOf p d) := by
  intro fields
  have bounded : ∀ n > p.structs.length,
      Ends p operator [] [.struct d] ((ofStruct p operator n d).run []) :=
    fun n hn => ends_ofStruct_nil hd hn
  refine ⟨⟨_, bounded _ (Nat.lt_succ_self _)⟩, fun r hr => hr.map_eq_report hd,
    (bounded _ (Nat.lt_succ_self _)).map_eq_report hd,
    fun n hn => (bounded n hn).map_eq_report hd, fun hname => ?_⟩
  have hkey : ∀ a ∈ p.structs, ∀ b ∈ p.structs, nameOf a = nameOf b ↔ placeOf a = placeOf b := by
    refine fun a ha b hb => ⟨hname a ha b hb, fun h => ?_⟩
    obtain ⟨hmodule, hitem⟩ := Prod.mk.inj h
    rw [nameOf, nameOf, hmodule, hitem]
  refine traverse_congr hkey (fun e he => ?_) (within_struct_cons.mpr ⟨hd, by simp [Within]⟩)
  exact iff_of_true (List.mem_map_of_mem he) (List.mem_map_of_mem he)

section Runs

/-- A public field that is flattened to a struct. -/
def flatField (name : String) (path : List String) : Field :=
  ⟨[⟨{ segments := ["serde"] }, .list [.ident "flatten"]⟩], true, some name, .path path []⟩

/-- A public field that is read from the query. -/
def queryField (name : String) (type : TypeExpr) : Field :=
  ⟨[⟨{ segments := ["param"] }, .list [.ident "query"]⟩], true, some name, type⟩

def listing : Declared StructItem :=
  ⟨[], [], "List", [], .named [queryField "limit" (.path ["u32"] []), flatField "page" ["Page"]]⟩

/-- Two structs that are flattened into each other. -/
def pages : Program where
  structs := [listing, ⟨[], [], "Page", [],
    .named [flatField "list" ["List"], queryField "cursor" (.path ["String"] [])]⟩]

theorem all_eq_report_pages :
    listing ∈ pages.structs ∧
    (let fields := traversal nameOf pages listing
     (∃ r, Ends pages "List" [] [.struct listing] r) ∧
     all pages "List" listing = report "List" fields ∧
     fields = traversal placeOf pages listing) ∧
    (all pages "List" listing).map (·.map (·.field.name)) = .ok [some "limit", some "cursor"] := by
  have hd : listing ∈ pages.structs := List.mem_cons_self
  have hname : NamesTellApart pages := by unfold NamesTellApart; decide
  obtain ⟨hends, -, hall, -, hplace⟩ := all_eq_report "List" hd
  exact ⟨hd, ⟨hends, hall, hplace hname⟩, by decide +kernel⟩

def plain : Declared StructItem := ⟨["a::b"], [], "X", [], .named []⟩

def lost : Field := ⟨[], true, some "lost", .path ["String"] []⟩

def namesake : Declared StructItem := ⟨["a", "b"], [], "X", [], .named [lost]⟩

def searching : Declared StructItem :=
  ⟨["a::b"], [], "Op", [], .named [flatField "first" ["X"], flatField "second" ["b", "X"]]⟩

/-- A module whose own name is the path of another one. Both have a struct of the same name. -/
def oneName : Program where
  structs := [plain, searching, namesake]

/-- The search takes the second struct for the first one, and misses its field. -/
theorem all_ne_report_oneName :
    all oneName "a::b::Op" searching = .ok [] ∧
    report "a::b::Op" (traversal placeOf oneName searching) =
      .error (.missingLocation "a::b::Op" "lost") := by
  refine ⟨rfl, ?_⟩
  have hsearching : stops oneName searching = [.struct plain, .struct namesake] := rfl
  have hplain : stops oneName plain = [] := rfl
  have hnamesake : stops oneName namesake = [.field namesake lost] := rfl
  rw [traversal, traverse, if_pos (by decide), hsearching, List.cons_append, traverse,
    if_pos (by decide), hplain, List.nil_append, List.cons_append, traverse, if_pos (by decide),
    hnamesake, List.cons_append, traverse]
  exact report_cons_missing rfl

end Runs

end LocatedField

end ServiceContract
