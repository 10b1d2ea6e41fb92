import ServiceContract.Proofs.Operator.Cache

/-! # The schemes that operators demand

The schemes of an operator are told by its located fields alone, one for each field that is marked
for security and stands where a key may stand. So they are the same whenever the operator is
compiled, and those of an operator that is known are still its own.
-/

namespace ServiceContract

open Source TypeCompiler Work

namespace LocatedField

variable (site : LocatedField)

/-- The name of a field in the request, which its type has no part in. -/
def requestName : String :=
  RequestParts.nameOf site (.ofField site.field site.container ⟨{}, false, 0⟩)

/-- Where a key may stand. -/
def keyLocations : List ParamLocation := [.query, .header, .cookie]

/-- The scheme that a field demands which is marked for security; elsewhere the mark counts for
nothing. -/
def scheme? : Option (String × SecurityScheme) :=
  if site.param.security && keyLocations.contains site.location then
    some (site.requestName, .apiKey site.requestName site.location.text)
  else none

end LocatedField

namespace RequestParts

variable {site : LocatedField} {sites : List LocatedField} {f : FieldSchema} {r : RequestParts}

/-- A field adds the scheme that it demands, and no other field adds one. -/
theorem security_addField (hf : nameOf site f = site.requestName) :
    (r.addField site f).security = r.security ++ site.scheme?.toList := by
  simp only [addField, LocatedField.scheme?, hf]
  cases site.location <;> cases site.param.security <;>
    simp [ParamLocation.formMediaType?, LocatedField.keyLocations, addForm, addBody, addParameter,
      apply_ite RequestParts.security]

theorem meets_security {p : Program} {t : SchemaTable} :
    Meets typeErrors (ofFields p r sites) t fun _ r' =>
      r'.security = r.security ++ sites.filterMap LocatedField.scheme? := by
  induction sites generalizing r t with
  | nil => exact .pure (by simp)
  | cons site rest ih =>
    have hname : Meets typeErrors (p.compileMember site.field site.container site.module) t
        fun _ f => nameOf site f = site.requestName :=
      ((compileRules_typeErrors p).compileField _ _ _).bind fun _ _ _ _ => .pure rfl
    refine hname.bind fun f _ _ hf => ih.imp fun r' _ _ hr' => ?_
    rw [hr', security_addField hf, List.append_assoc]
    cases hs : site.scheme? <;> simp [hs]

end RequestParts

/-- An operator demands the schemes of the located fields of its struct; a group demands none. -/
inductive Operator.Demands (p : Program) : Operator → Prop
  | group (path : String) : Demands p (.group path)
  | struct {op : Operator} {d : Declared StructItem} {sites : List LocatedField} :
      d ∈ p.structs → op.name = qualify d.module d.item.name →
      LocatedField.all p op.name d = .ok sites →
      op.security = sites.filterMap LocatedField.scheme? → Demands p op

/-- All operators that are known are as described. -/
def CompilerState.Holds (P : Operator → Prop) (s : CompilerState) : Prop :=
  ∀ key op, s.operators.lookup key = some (.ready op) → P op

/-- However work ends, operators that are known stay as described. -/
def holding (P : Operator → Prop) : Effects CompilerState where
  Step s s' := s.Holds P → s'.Holds P
  Fails _ s s' := s.Holds P → s'.Holds P
  refl _ h := h
  trans h h' hs := h' (h hs)
  fails_trans h h' hs := h' (h hs)

namespace CompilerState.Holds

open OperatorCompile

variable {P : Operator → Prop} {s s' : CompilerState} {key : String} {entry : OperatorEntry}

theorem setEntry (h : s.Holds P) (he : ∀ op, entry = .ready op → P op) :
    (setEntry key entry s).Holds P :=
  Known.setEntry h he

theorem dropEntry (h : s.Holds P) : (dropEntry key s).Holds P := Known.dropEntry h

theorem congr (h : s.Holds P) (hs : s'.operators = s.operators) : s'.Holds P := by
  unfold Holds
  rwa [hs]

end CompilerState.Holds

namespace Operator

open OperatorCompile

variable {P : Operator → Prop} {search : ErrorSearch} {s s' : CompilerState}

section Compile

variable (group : ∀ path, P (.group path))
  (struct : ∀ {module name d op s s'}, search.program.findStruct module name = some d →
    (ofStruct search d (qualify module name)).runOn s = (.ok op, s') → P op)

include struct

/-- What holds of every operator that is compiled holds of those that are known from before. -/
theorem holds_ofDeclared (module : List String) (name : String) (hs : s.Holds P) :
    Meets (holding P) (ofDeclared search module name) s fun _ => P := by
  have begun : (setEntry (qualify module name) .inProgress s).Holds P := hs.setEntry (by simp)
  unfold Meets
  rcases hr : (ofDeclared search module name).runOn s with ⟨r, s'⟩
  cases ends_ofDeclared hr with
  | known hl => exact ⟨fun h => h, hs _ _ hl⟩
  | failed => exact fun h => h
  | refused => exact fun h => h
  | compiled h =>
    have hop := struct h.found h.runOn_eq
    refine ⟨fun _ => (begun.congr h.operators_eq).setEntry ?_, hop⟩
    rintro _ ⟨⟩
    exact hop
  | unlocated h => exact fun _ => (begun.congr h.operators_eq).setEntry (by simp)
  | dropped h => exact fun _ => (begun.congr h.operators_eq).dropEntry

include group

theorem holds_chain {chain : List OperatorRef} (hs : s.Holds P) :
    Meets (holding P) (chain.mapM (compile search)) s fun _ ops => ∀ op ∈ ops, P op := by
  refine Meets.mapM (E := holding P) (R := fun _ => P) (fun _ h => h) fun op _ s' hstep => ?_
  cases op with
  | group path => exact .pure (group path)
  | type module name => exact holds_ofDeclared struct module name (hstep hs)

end Compile

/-- A struct is compiled to an operator that demands the schemes of its fields. -/
theorem demands_ofStruct {module : List String} {name : String} {d : Declared StructItem}
    {op : Operator} (hd : search.program.findStruct module name = some d)
    (h : (ofStruct search d (qualify module name)).runOn s = (.ok op, s')) :
    op.Demands search.program := by
  cases stages_ofStruct h with
  | done hall hrequest _ hname _ _ hsecurity =>
    obtain ⟨-, hrequest⟩ := RequestParts.meets_security.ok hrequest
    refine .struct (List.mem_of_find?_eq_some hd) ?_ (hname ▸ hall) ?_
    · obtain ⟨rfl, rfl⟩ := Program.place_of_findStruct hd
      exact hname
    · rw [hsecurity, hrequest]
      rfl

/-- The operators of a chain demand the schemes of their own fields. -/
theorem demands_chain {chain : List OperatorRef} (hs : s.Holds (Demands search.program)) :
    Meets (holding (Demands search.program)) (chain.mapM (compile search)) s
      fun _ ops => ∀ op ∈ ops, op.Demands search.program :=
  holds_chain .group demands_ofStruct hs

/-- Every scheme that an operator demands is a key of its name, in the query, a header or a
cookie. -/
theorem Demands.apiKey {p : Program} {op : Operator} (h : op.Demands p)
    {scheme : String × SecurityScheme} (hs : scheme ∈ op.security) :
    ∃ location ∈ LocatedField.keyLocations, scheme.2 = .apiKey scheme.1 location.text := by
  cases h with
  | group path => cases hs
  | struct _ _ _ hsec =>
    rw [hsec] at hs
    obtain ⟨site, -, hsite⟩ := List.mem_filterMap.mp hs
    unfold LocatedField.scheme? at hsite
    split at hsite
    · next hmarked =>
      cases hsite
      simp only [Bool.and_eq_true, List.contains_iff_mem] at hmarked
      exact ⟨site.location, hmarked.2, rfl⟩
    · cases hsite

end Operator

end ServiceContract
