import ServiceContract.Proofs.Operator.Cache

/-! # Calls on the compiler of operators

Operators and types are compiled in turns, on one table. A call for an operator changes what is
known of no other operator. A field without a location is found before anything else is done, so it
leaves nothing behind but the note of it, which stays through all later calls.
-/

namespace ServiceContract

open Source TypeCompiler Work

namespace Operator

open OperatorCompile

variable {search : ErrorSearch} {s s' : CompilerState} {d : Declared StructItem}
  {key module name operator field : String}

/-- A call for an operator says nothing about the others. -/
theorem lookup_ofDeclared_of_ne {module : List String} (hne : key ≠ qualify module name) :
    ((ofDeclared search module name).runOn s).2.operators.lookup key =
      s.operators.lookup key := by
  have before {d r s'} (h : Runs search module name s d r s') :
      s'.operators.lookup key = s.operators.lookup key := by
    rw [h.operators_eq]
    exact lookup_setKey_of_ne hne
  rcases hr : (ofDeclared search module name).runOn s with ⟨r, s'⟩
  cases ends_ofDeclared hr with
  | known => rfl
  | failed => rfl
  | refused => rfl
  | compiled h => exact (lookup_setKey_of_ne hne).trans (before h)
  | unlocated h => exact (lookup_setKey_of_ne hne).trans (before h)
  | dropped h => exact (CompilerState.lookup_dropEntry.trans (if_neg hne)).trans (before h)

/-- An operator that lacks a location keeps failing for it. -/
theorem runOn_ofDeclared_of_failed {module : List String}
    (h : s.operators.lookup (qualify module name) = some (.failed field)) :
    (ofDeclared search module name).runOn s =
      (.error (.missingLocation (qualify module name) field), s) := by
  show ofDeclared search module name s = _
  unfold ofDeclared
  dsimp only
  rw [h]

/-- A call that fails for a field without a location leaves a note of it. -/
theorem lookup_of_missingLocation {module : List String}
    (h : (ofDeclared search module name).runOn s =
      (.error (.missingLocation operator field), s')) :
    operator = qualify module name ∧ s'.table = s.table ∧ s'.memo = s.memo ∧
      ∀ key, s'.operators.lookup key =
        if key = operator then some (.failed field) else s.operators.lookup key := by
  cases ends_ofDeclared h with
  | failed hl =>
    refine ⟨rfl, rfl, rfl, fun key => ?_⟩
    split
    · next heq => rw [heq, hl]
    · rfl
  | unlocated hruns =>
    obtain htype | ⟨⟨_, ⟨⟩⟩, rfl⟩ := error_of_ofStruct hruns.mem_structs hruns.runOn_eq
    · cases htype
    refine ⟨rfl, rfl, rfl, fun key => ?_⟩
    rw [setEntry, setEntry, lookup_setKey]
    split
    · rfl
    · next hne => exact lookup_setKey_of_ne hne
  | dropped _ hother => exact absurd rfl (hother _ _)

/-- Once an operator is known to lack a location, no call changes that. -/
theorem lookup_after_of_failed (calls : List CompilerCall)
    (h : s.operators.lookup key = some (.failed field)) :
    (s.after search calls).operators.lookup key = some (.failed field) := by
  induction calls generalizing s with
  | nil => exact h
  | cons call rest ih =>
    refine ih ?_
    cases call with
    | schema call => exact h
    | operator op =>
      cases op with
      | group path => exact h
      | type module name =>
        show ((ofDeclared search module name).runOn s).2.operators.lookup key = _
        by_cases hkey : key = qualify module name
        · subst hkey
          rw [runOn_ofDeclared_of_failed h]
          exact h
        · rw [lookup_ofDeclared_of_ne hkey]
          exact h

/-- A call that fails for a field without a location changes nothing but what is known of its own
operator, and every later call for that operator fails in the same way and changes nothing. -/
theorem missing_location_stays {op : OperatorRef}
    (h : (compile search op).runOn s = (.error (.missingLocation operator field), s')) :
    (∃ module name, op = .type module name ∧ operator = qualify module name) ∧
    s'.table = s.table ∧ s'.memo = s.memo ∧
    (∀ key, s'.operators.lookup key =
      if key = operator then some (.failed field) else s.operators.lookup key) ∧
    ∀ calls : List CompilerCall, (compile search op).runOn (s'.after search calls) =
      (.error (.missingLocation operator field), s'.after search calls) := by
  cases op with
  | group path => cases h
  | type module name =>
    obtain ⟨rfl, htable, hmemo, hentries⟩ := lookup_of_missingLocation h
    refine ⟨⟨module, name, rfl, rfl⟩, htable, hmemo, hentries, fun calls => ?_⟩
    exact runOn_ofDeclared_of_failed
      (lookup_after_of_failed calls ((hentries _).trans (if_pos rfl)))

section Paging

def markedField (attr : String) (args : List Token) (name type : String) : Field :=
  ⟨[⟨{ segments := [attr] }, .list args⟩], true, some name, .path [type] []⟩

/-- A search for items of a kind, whose page has a number without a location. -/
def pagedSearch : Program where
  structs :=
    [⟨["items"], [], "Search", [], .named
      [markedField "param" [.ident "query"] "kind" "Kind",
       markedField "serde" [.ident "flatten"] "page" "Page"]⟩,
     ⟨["items"], [], "Page", [], .named [⟨[], true, some "number", .path ["u32"] []⟩]⟩,
     ⟨["items"], [], "Kind", [], .named [⟨[], true, some "label", .path ["String"] []⟩]⟩]

/-- The kinds of items are described only when they are asked for. -/
theorem missing_location_stays_pagedSearch :
    let search := ErrorSearch.ofProgram pagedSearch
    let s := CompilerState.after search {} [.schema (.type (.path ["Page"] []) ["items"])]
    ∃ s', (compile search (.type ["items"] "Search")).runOn s =
        (.error (.missingLocation "items::Search" "number"), s') ∧
      s'.table = s.table ∧ s'.table.definitions.map (·.1) = ["items::Page"] ∧ s'.memo = s.memo ∧
      s'.operators.lookup "items::Search" = some (.failed "number") ∧
      ∀ calls : List CompilerCall,
        (compile search (.type ["items"] "Search")).runOn (s'.after search calls) =
          (.error (.missingLocation "items::Search" "number"), s'.after search calls) := by
  intro search s
  have hrun : (compile search (.type ["items"] "Search")).runOn s =
      (.error (.missingLocation "items::Search" "number"),
        ((compile search (.type ["items"] "Search")).runOn s).2) := rfl
  obtain ⟨-, htable, hmemo, hentries, hlater⟩ := missing_location_stays hrun
  refine ⟨_, hrun, htable, ?_, hmemo, (hentries _).trans (if_pos rfl), hlater⟩
  rw [htable]
  rfl

end Paging

end Operator

end ServiceContract
