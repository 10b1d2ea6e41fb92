import ServiceContract.Operator.Compiler
import ServiceContract.Proofs.Operator.Located
import ServiceContract.Proofs.Route.Operators
import ServiceContract.Proofs.Schema.Growth

/-! # What is known of operators between calls

The ways in which the work on a struct and a call for it can end are listed once. An operator is in
progress only while it is compiled itself, and compiling it asks for no other operator. So between
two calls none is in progress, however the calls end, and those that are known were made of the
fields of structs.
-/

namespace ServiceContract

open Source TypeCompiler Work

/-- Whether an error says that a type cannot be described. -/
def Error.OfType : Error → Prop
  | .unsupportedMapKey _ _ | .unknownPrimitive _ _ | .endlessType _ => True
  | _ => False

/-- Whatever work does to the components, it fails only for a type. -/
def typeErrors : Effects SchemaTable where
  Step _ _ := True
  Fails e _ _ := e.OfType
  refl _ := trivial
  trans _ _ := trivial
  fails_trans _ h := h

theorem compileRules_typeErrors (p : Program) :
    CompileRules p typeErrors (fun _ _ => True) (fun _ _ => True) where
  schemas _ := by constructor <;> intros <;> trivial
  mono _ h := h
  mono_parts _ h := h
  known _ := trivial
  component _ _ _ _ _ := ⟨trivial, trivial⟩
  component_fails _ _ _ h := h
  endless _ _ := trivial
  unknown _ _ _ _ := trivial
  mapKey _ _ _ := trivial

/-- Work that leaves alone what is known of operators. It fails for a type, or as is allowed. -/
def compiling (Allowed : Error → Prop) : Effects CompilerState where
  Step s s' := s'.operators = s.operators
  Fails e s s' := s'.operators = s.operators ∧ (e.OfType ∨ Allowed e)
  refl _ := rfl
  trans h h' := h'.trans h
  fails_trans h h' := ⟨h'.1.trans h, h'.2⟩

/-- What is read from a request was gathered field by field. -/
inductive RequestParts.Gathered : RequestParts → Prop
  | nil : Gathered {}
  | add {r} (site : LocatedField) (f : FieldSchema) : Gathered r → Gathered (r.addField site f)

/-- An operator is a group, or what was gathered of a struct together with its response. -/
inductive Operator.Made : Operator → Prop
  | group (path : String) : Made (.group path)
  | struct {op : Operator} {request : RequestParts} {attr : OperatorAttr}
      {out : SuccessResponse.Output} {body : Option (String × Schema)} : request.Gathered →
      op.parameters = request.parameters → op.requestBody = request.requestBody →
      op.security = request.security → op.response = .assemble attr out body → Made op

namespace Operator

open OperatorCompile

variable {search : ErrorSearch} {s : CompilerState} {Allowed : Error → Prop}

theorem runOn_onTable {α : Type} (work : Compile α) (s : CompilerState) :
    (onTable work).runOn s =
      ((work.runOn s.table).1, { s with table := (work.runOn s.table).2 }) := rfl

theorem meets_onTable {α : Type} {work : Compile α} {P : α → Prop}
    (h : Meets typeErrors work s.table fun _ => P) :
    Meets (compiling Allowed) (onTable work) s fun _ => P := by
  unfold Meets
  rw [runOn_onTable]
  rcases hw : work.runOn s.table with ⟨e | a, t⟩
  · exact ⟨rfl, .inl (h.error hw)⟩
  · exact ⟨rfl, (h.ok hw).2⟩

theorem meets_ofFields {p : Program} {E : Effects SchemaTable}
    {Good : SchemaTable → Schema → Prop} {Parts : SchemaTable → ObjectParts → Prop}
    (rules : CompileRules p E Good Parts) {t : SchemaTable} (sites : List LocatedField)
    {r : RequestParts} (hr : r.Gathered) :
    Meets E (RequestParts.ofFields p r sites) t fun _ => RequestParts.Gathered := by
  induction sites generalizing r t with
  | nil => exact .pure hr
  | cons site rest ih =>
    exact (rules.compileMember site.field site.container).bind fun f _ _ _ => ih (.add site f hr)

theorem meets_compileResponse {p : Program} {t : SchemaTable} (attr : OperatorAttr)
    (method : Option FnDecl) : Meets typeErrors (SuccessResponse.compile p attr method) t
      fun _ response => ∃ attr out body, response = .assemble attr out body := by
  unfold SuccessResponse.compile
  refine .bind (P := fun _ _ => True) ?_ fun body _ _ _ => .pure ⟨_, _, body, rfl⟩
  unfold SuccessResponse.bodyOf
  split
  · exact .pure trivial
  · split
    · exact ((compileRules_typeErrors p).compileType _).bind fun _ _ _ _ => .pure trivial
    · exact .pure trivial

/-- The search for the errors of the output method does not fail. -/
theorem exists_runOn_errorsOf (search : ErrorSearch) (method : Option FnDecl) (s : CompilerState) :
    ∃ errors memo, (errorsOf search method).runOn s = (.ok errors, { s with memo }) := by
  cases method with
  | none => exact ⟨[], s.memo, rfl⟩
  | some f => exact ⟨_, _, rfl⟩

/-- How far a struct is compiled, and the state that this leaves. The locations come first, then
what is read from the request, and then the response. -/
inductive Stages (search : ErrorSearch) (d : Declared StructItem) (key : String)
    (s : CompilerState) : Except Error Operator → CompilerState → Prop
  | unlocated {e : Error} : LocatedField.all search.program key d = .error e →
      Stages search d key s (.error e) s
  | request {sites : List LocatedField} {e : Error} {t : SchemaTable} :
      LocatedField.all search.program key d = .ok sites →
      (RequestParts.ofFields search.program {} sites).runOn s.table = (.error e, t) →
      Stages search d key s (.error e) { s with table := t }
  | response {sites : List LocatedField} {request : RequestParts} {e : Error}
      {t t' : SchemaTable} :
      LocatedField.all search.program key d = .ok sites →
      (RequestParts.ofFields search.program {} sites).runOn s.table = (.ok request, t) →
      (SuccessResponse.compile search.program (.ofAttrs d.item.attrs)
        (search.program.ownedMethod key outputMethod)).runOn t = (.error e, t') →
      Stages search d key s (.error e) { s with table := t' }
  | done {sites : List LocatedField} {request : RequestParts} {op : Operator}
      {t t' : SchemaTable} {memo : ErrorSearch.Memo} :
      LocatedField.all search.program key d = .ok sites →
      (RequestParts.ofFields search.program {} sites).runOn s.table = (.ok request, t) →
      (SuccessResponse.compile search.program (.ofAttrs d.item.attrs)
        (search.program.ownedMethod key outputMethod)).runOn t = (.ok op.response, t') →
      op.name = key → op.parameters = request.parameters →
      op.requestBody = request.requestBody → op.security = request.security →
      Stages search d key s (.ok op) { s with table := t', memo }

section Stages

variable {d : Declared StructItem} {key : String} {r : Except Error Operator} {s' : CompilerState}

theorem stages_ofStruct (h : (ofStruct search d key).runOn s = (r, s')) :
    Stages search d key s r s' := by
  unfold ofStruct at h
  dsimp only at h
  cases hall : LocatedField.all search.program key d with
  | error e =>
    rw [hall] at h
    cases h
    exact .unlocated hall
  | ok sites =>
    rw [hall, runOn_bind, runOn_mk] at h
    dsimp only at h
    rw [runOn_bind, runOn_onTable] at h
    rcases hrequest : (RequestParts.ofFields search.program {} sites).runOn s.table with
      ⟨e | request, t⟩ <;> rw [hrequest] at h <;> dsimp only at h
    · cases h
      exact .request hall hrequest
    · rw [runOn_bind, runOn_onTable] at h
      dsimp only at h
      rcases hresponse : (SuccessResponse.compile search.program (.ofAttrs d.item.attrs)
        (search.program.ownedMethod key outputMethod)).runOn t with
        ⟨e | response, t'⟩ <;> rw [hresponse] at h <;> dsimp only at h
      · cases h
        exact .response hall hrequest hresponse
      · obtain ⟨errors, memo, herrors⟩ := exists_runOn_errorsOf search
          (search.program.ownedMethod key outputMethod) { s with table := t' }
        rw [runOn_bind, herrors] at h
        cases h
        exact .done hall hrequest hresponse rfl rfl rfl rfl

/-- While a struct is compiled, no operator is asked for or entered. -/
theorem operators_ofStruct (h : (ofStruct search d key).runOn s = (r, s')) :
    s'.operators = s.operators := by
  cases stages_ofStruct h <;> rfl

theorem made_of_ofStruct {op : Operator} (h : (ofStruct search d key).runOn s = (.ok op, s')) :
    op.Made := by
  cases stages_ofStruct h with
  | done _ hrequest hresponse _ hparameters hbody hsecurity =>
    obtain ⟨-, hgathered⟩ := (meets_ofFields (compileRules_typeErrors _) _ .nil).ok hrequest
    obtain ⟨-, attr, out, body, hassembled⟩ := (meets_compileResponse _ _).ok hresponse
    exact .struct hgathered hparameters hbody hsecurity hassembled

/-- A struct fails for a type, or for a field without a location, and then nothing has changed. -/
theorem error_of_ofStruct {e : Error} (hd : d ∈ search.program.structs)
    (h : (ofStruct search d key).runOn s = (.error e, s')) :
    e.OfType ∨ (∃ field, e = .missingLocation key field) ∧ s' = s := by
  cases stages_ofStruct h with
  | unlocated hall => exact .inr ⟨LocatedField.eq_missingLocation_of_all hd hall, rfl⟩
  | request _ hrequest =>
    exact .inl ((meets_ofFields (compileRules_typeErrors _) _ .nil).error hrequest)
  | response _ _ hresponse => exact .inl ((meets_compileResponse _ _).error hresponse)

end Stages

end Operator

/-- A call on the compiler of operators, or on the compiler of types that it shares. -/
inductive CompilerCall
  | operator (op : OperatorRef)
  | schema (call : SchemaCall)

/-- The state after a call, also after one that failed. -/
def CompilerCall.next (search : ErrorSearch) (s : CompilerState) : CompilerCall → CompilerState
  | .operator op => ((Operator.compile search op).runOn s).2
  | .schema call => { s with table := call.next search.program s.table }

/-- The state after a sequence of calls. -/
def CompilerState.after (search : ErrorSearch) (s : CompilerState) (calls : List CompilerCall) :
    CompilerState :=
  calls.foldl (CompilerCall.next search) s

/-- No operator is in progress, and those that are known were made of structs. -/
structure CompilerState.Settled (s : CompilerState) : Prop where
  finished : ∀ key, s.operators.lookup key ≠ some .inProgress
  made : ∀ key op, s.operators.lookup key = some (.ready op) → op.Made

theorem CompilerState.settled_empty : CompilerState.Settled {} :=
  ⟨fun key => by simp, fun key op => by simp⟩

/-- Settled states stay so. Work fails for a type, or for a field without a location. -/
def settling : Effects CompilerState where
  Step s s' := s.Settled → s'.Settled
  Fails e s s' := (s.Settled → s'.Settled) ∧ (e.OfType ∨ e.isFatal = false)
  refl _ h := h
  trans h h' hs := h' (h hs)
  fails_trans h h' := ⟨fun hs => h'.1 (h hs), h'.2⟩

namespace CompilerState

open OperatorCompile

variable {s s' : CompilerState} {key other : String} {entry : OperatorEntry}

theorem lookup_dropEntry : (dropEntry key s).operators.lookup other =
    if other = key then none else s.operators.lookup other := by
  unfold dropEntry
  dsimp only
  induction s.operators with
  | nil => simp
  | cons e rest ih =>
    obtain ⟨k, entry⟩ := e
    by_cases hk : k = key
    · subst hk
      rw [List.filter_cons_of_neg (by simp), ih]
      split
      · rfl
      · next hne => rw [List.lookup_cons, beq_eq_false_iff_ne.mpr hne]
    · rw [List.filter_cons_of_pos (by simpa using hk), List.lookup_cons, List.lookup_cons, ih]
      by_cases ho : other = k
      · simp [ho, hk]
      · rw [beq_eq_false_iff_ne.mpr ho]

/-- Every operator that is known is as described. -/
def Known (P : String → Operator → Prop) (s : CompilerState) : Prop :=
  ∀ key op, s.operators.lookup key = some (.ready op) → P key op

section Known

variable {P : String → Operator → Prop}

theorem Known.setEntry (h : s.Known P) (he : ∀ op, entry = .ready op → P key op) :
    (setEntry key entry s).Known P := by
  intro other op hop
  simp only [OperatorCompile.setEntry, lookup_setKey] at hop
  split at hop
  · next heq => exact heq ▸ he op (Option.some.inj hop)
  · exact h other op hop

theorem Known.dropEntry (h : s.Known P) : (dropEntry key s).Known P := by
  intro other op hop
  rw [lookup_dropEntry] at hop
  split at hop
  · cases hop
  · exact h other op hop

end Known

/-- The end of a call replaces the entry that it began with. -/
theorem Settled.replaced (h : s.Settled)
    (hs : s'.operators = (setEntry key .inProgress s).operators) (he : entry ≠ .inProgress)
    (hm : ∀ op, entry = .ready op → op.Made) : (setEntry key entry s').Settled := by
  have hlookup (other : String) : (setEntry key entry s').operators.lookup other =
      if other = key then some entry else s.operators.lookup other := by
    simp only [setEntry, hs, lookup_setKey]
    split <;> rfl
  constructor
  · intro other
    rw [hlookup]
    split
    · simpa using he
    · exact h.finished other
  · intro other op hop
    rw [hlookup] at hop
    split at hop
    · exact hm op (Option.some.inj hop)
    · exact h.made other op hop

/-- The end of a call drops the entry that it began with. -/
theorem Settled.dropped (h : s.Settled)
    (hs : s'.operators = (setEntry key .inProgress s).operators) :
    (dropEntry key s').Settled := by
  have hlookup (other : String) : (dropEntry key s').operators.lookup other =
      if other = key then none else s.operators.lookup other := by
    rw [lookup_dropEntry, hs, setEntry, lookup_setKey]
    split <;> rfl
  constructor
  · intro other
    rw [hlookup]
    split
    · simp
    · exact h.finished other
  · intro other op hop
    rw [hlookup] at hop
    split at hop
    · cases hop
    · exact h.made other op hop

end CompilerState

namespace Operator

open OperatorCompile

variable {search : ErrorSearch} {s : CompilerState}

/-- A struct that is not known is compiled, with this outcome and the state after it. -/
structure Runs (search : ErrorSearch) (module : List String) (name : String) (s : CompilerState)
    (d : Declared StructItem) (r : Except Error Operator) (s' : CompilerState) : Prop where
  unknown : s.operators.lookup (qualify module name) = none
  found : search.program.findStruct module name = some d
  runOn_eq : (ofStruct search d (qualify module name)).runOn
    (setEntry (qualify module name) .inProgress s) = (r, s')

/-- How a call for a struct ends, and the state that it leaves. -/
inductive Ends (search : ErrorSearch) (module : List String) (name : String) (s : CompilerState) :
    Except Error Operator → CompilerState → Prop
  | known {op : Operator} : s.operators.lookup (qualify module name) = some (.ready op) →
      Ends search module name s (.ok op) s
  | failed {field : String} : s.operators.lookup (qualify module name) = some (.failed field) →
      Ends search module name s (.error (.missingLocation (qualify module name) field)) s
  | refused {text : String} : s.operators.lookup (qualify module name) = some .inProgress ∨
      search.program.findStruct module name = none →
      Ends search module name s (.error (.invalidArgument text)) s
  | compiled {d : Declared StructItem} {op : Operator} {s' : CompilerState} :
      Runs search module name s d (.ok op) s' →
      Ends search module name s (.ok op) (setEntry (qualify module name) (.ready op) s')
  | unlocated {d : Declared StructItem} {operator field : String} {s' : CompilerState} :
      Runs search module name s d (.error (.missingLocation operator field)) s' →
      Ends search module name s (.error (.missingLocation operator field))
        (setEntry (qualify module name) (.failed field) s')
  | dropped {d : Declared StructItem} {e : Error} {s' : CompilerState} :
      Runs search module name s d (.error e) s' →
      (∀ operator field, e ≠ .missingLocation operator field) →
      Ends search module name s (.error e) (dropEntry (qualify module name) s')

section Ends

variable {module : List String} {name : String} {d : Declared StructItem}
  {r : Except Error Operator} {s' : CompilerState}

theorem ends_ofDeclared (h : (ofDeclared search module name).runOn s = (r, s')) :
    Ends search module name s r s' := by
  replace h : ofDeclared search module name s = (r, s') := h
  unfold ofDeclared at h
  dsimp only at h
  split at h
  · next op hl => cases h; exact .known hl
  · next field hl => cases h; exact .failed hl
  · next hl => cases h; exact .refused (.inl hl)
  · next hl =>
    split at h
    · next hd => cases h; exact .refused (.inr hd)
    · next d hd =>
      split at h
      · next hrun => cases h; exact .compiled ⟨hl, hd, hrun⟩
      · next hrun => cases h; exact .unlocated ⟨hl, hd, hrun⟩
      · next hother hrun =>
        cases h
        exact .dropped ⟨hl, hd, hrun⟩ fun operator field he => hother operator field he

theorem Runs.mem_structs (h : Runs search module name s d r s') : d ∈ search.program.structs :=
  List.mem_of_find?_eq_some h.found

theorem Runs.operators_eq (h : Runs search module name s d r s') :
    s'.operators = (setEntry (qualify module name) .inProgress s).operators :=
  operators_ofStruct h.runOn_eq

/-- Where no operator is in progress, compiling a declared struct ends with none in progress. It
fails for a type, or for a field without a location. -/
theorem settles_ofDeclared (hd : search.program.findStruct module name = some d)
    (hs : s.Settled) : Meets settling (ofDeclared search module name) s fun _ => Made := by
  unfold Meets
  rcases hr : (ofDeclared search module name).runOn s with ⟨r, s'⟩
  cases ends_ofDeclared hr with
  | known hl => exact ⟨fun h => h, hs.made _ _ hl⟩
  | failed => exact ⟨fun h => h, .inr rfl⟩
  | refused h =>
    rcases h with hl | hnone
    · exact absurd hl (hs.finished _)
    · rw [hd] at hnone
      cases hnone
  | compiled h =>
    have hmade := made_of_ofStruct h.runOn_eq
    refine ⟨fun hs => hs.replaced h.operators_eq (by simp) ?_, hmade⟩
    rintro _ ⟨⟩
    exact hmade
  | unlocated h => exact ⟨fun hs => hs.replaced h.operators_eq (by simp) (by simp), .inr rfl⟩
  | dropped h hother =>
    obtain htype | ⟨⟨field, rfl⟩, -⟩ := error_of_ofStruct h.mem_structs h.runOn_eq
    · exact ⟨fun hs => hs.dropped h.operators_eq, .inl htype⟩
    · exact absurd rfl (hother _ _)

end Ends

theorem settles_compile {op : OperatorRef} (hop : op.Declared search.program) (hs : s.Settled) :
    Meets settling (compile search op) s fun _ => Made := by
  cases op with
  | group path => exact .pure (.group path)
  | type module name =>
    obtain ⟨d, hd⟩ := hop
    exact settles_ofDeclared hd hs

theorem settled_of_compile {op : OperatorRef} (hop : op.Declared search.program) (hs : s.Settled) :
    ((compile search op).runOn s).2.Settled := by
  have h := settles_compile hop hs
  rcases hr : (compile search op).runOn s with ⟨e | _, s'⟩
  · exact (h.error hr).1 hs
  · exact (h.ok hr).1 hs

/-- None of the operators is in progress between two calls. -/
theorem settled_after {calls : List CompilerCall} (hs : s.Settled)
    (h : ∀ op, .operator op ∈ calls → op.Declared search.program) :
    (s.after search calls).Settled := by
  induction calls generalizing s with
  | nil => exact hs
  | cons call calls ih =>
    refine ih ?_ fun op hop => h op (List.mem_cons_of_mem _ hop)
    cases call with
    | operator op => exact settled_of_compile (h op List.mem_cons_self) hs
    | schema call => exact ⟨hs.finished, hs.made⟩

/-- A chain is compiled by calls for its first operators. -/
theorem exists_take_of_mapM (search : ErrorSearch) (s : CompilerState) (chain : List OperatorRef) :
    ∃ n, ((chain.mapM (compile search)).runOn s).2 =
      s.after search ((chain.take n).map .operator) := by
  induction chain generalizing s with
  | nil => exact ⟨0, rfl⟩
  | cons op rest ih =>
    rw [List.mapM_cons, runOn_bind]
    rcases hr : (compile search op).runOn s with ⟨e | a, s'⟩
    · exact ⟨1, by simp [CompilerState.after, CompilerCall.next, hr]⟩
    · obtain ⟨n, hn⟩ := ih s'
      refine ⟨n + 1, ?_⟩
      rw [List.take_succ_cons, List.map_cons, CompilerState.after, List.foldl_cons,
        CompilerCall.next, hr]
      change _ = s'.after search ((rest.take n).map .operator)
      rw [← hn]
      dsimp only
      rw [runOn_bind]
      rcases (rest.mapM (compile search)).runOn s' with ⟨e | as, s''⟩ <;> rfl

/-- A chain of declared structs and groups ends with no operator in progress. -/
theorem settles_chain {chain : List OperatorRef} (hs : s.Settled)
    (h : ∀ op ∈ chain, op.Declared search.program) :
    Meets settling (chain.mapM (compile search)) s fun _ ops => ∀ op ∈ ops, op.Made :=
  Meets.mapM (E := settling) (R := fun _ => Made) (fun _ h => h) fun op hop _ hstep =>
    settles_compile (h op hop) (hstep hs)

end Operator

end ServiceContract
