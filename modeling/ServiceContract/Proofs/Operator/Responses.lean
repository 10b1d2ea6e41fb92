import ServiceContract.Proofs.Operator.Calls
import ServiceContract.Proofs.Schema.Replay

/-! # Responses that operators announce

The attribute of an operator may name the type of its response. The response then has one body,
which has the schema of that type unless the output method attaches a file. The type is looked up
where the output method stands; without such a method it is looked up in the root.
-/

namespace ServiceContract

open Source TypeCompiler SchemaTable Work

/-- The type that an attribute names for the response. -/
def OperatorAttr.responseType? (attr : OperatorAttr) : Option TypeExpr :=
  attr.response.bind parseType?

/-- What the output method of a type says. -/
def Program.outputOf (p : Program) (owner : String) : SuccessResponse.Output :=
  .ofMethod p (p.ownedMethod owner Operator.outputMethod)

/-- Work that ended well ends in the same way later, and changes nothing then. -/
theorem Replays.meets {α : Type} {x : Compile α} {t : SchemaTable} (h : Replays x) :
    Meets growing x t fun t' a => ∀ T, t'.CoveredBy T → x.runOn T = (.ok a, T) := by
  unfold Meets
  rcases hr : x.runOn t with ⟨e | a, t'⟩
  · exact h.grows_of_runOn hr
  · exact ⟨h.grows_of_runOn hr, fun T hT => h.ok hr hT⟩

namespace SuccessResponse

variable {p : Program} {t : TypeExpr} {out : Output} {T T' : SchemaTable} {r : SuccessResponse}

/-- The body of a response for which a type is named: the file that is attached, or a value of the
type. -/
def Shows (p : Program) (t : TypeExpr) (out : Output) (T : SchemaTable) (r : SuccessResponse) :
    Prop :=
  ∃ media schema, r.response.content = some [(media, schema)] ∧
    (out.rules.attachment.isSome → schema = Schema.binary) ∧
    (out.rules.attachment = none → (p.compileType t out.module).runOn T = (.ok schema, T))

theorem Shows.mono (h : r.Shows p t out T) (hg : Grows T T') : r.Shows p t out T' := by
  obtain ⟨media, schema, hcontent, hfile, htype⟩ := h
  exact ⟨media, schema, hcontent, hfile, fun hnone =>
    (Replays.compileType p t out.module).ok (htype hnone) hg.coveredBy⟩

theorem bodyType?_of_responseType? {attr : OperatorAttr} (ht : attr.responseType? = some t) :
    bodyType? attr out = some (t, MediaType.json) := by
  rw [bodyType?, ← OperatorAttr.responseType?, ht]
  rfl

/-- A response is compiled with the body that the attribute announces. -/
theorem meets_shows {attr : OperatorAttr} {method : Option FnDecl} :
    Meets growing (compile p attr method) T fun T r =>
      ∀ t, attr.responseType? = some t → r.Shows p t (.ofMethod p method) T := by
  unfold compile
  generalize Output.ofMethod p method = out
  dsimp only
  unfold bodyOf
  cases hfile : out.rules.attachment with
  | some file =>
    refine .bind (P := fun _ body => body = some (file.2, Schema.binary)) (.pure rfl) ?_
    rintro _ T' - rfl
    exact .pure fun t _ => ⟨_, _, rfl, fun _ => rfl, fun hnone => by simp [hfile] at hnone⟩
  | none =>
    cases hbody : bodyType? attr out with
    | some body =>
      dsimp only
      rw [bind_assoc]
      refine (Replays.compileType p body.1 out.module).meets.bind fun schema T' _ h => ?_
      refine .pure fun t ht => ⟨_, schema, rfl, fun hsome => by simp [hfile] at hsome, fun _ => ?_⟩
      obtain rfl : body = (t, MediaType.json) :=
        Option.some.inj (hbody.symm.trans (bodyType?_of_responseType? ht))
      exact h T' (Grows.refl T').coveredBy
    | none =>
      refine .bind (P := fun _ _ => True) (.pure trivial) fun _ _ _ _ => .pure fun t ht => ?_
      rw [bodyType?_of_responseType? ht] at hbody
      cases hbody

end SuccessResponse

/-- The operator answers with what the attribute of the struct with its qualified name says. -/
def Operator.Announced (p : Program) (T : SchemaTable) (key : String) (op : Operator) : Prop :=
  ∃ module name d, key = qualify module name ∧ p.findStruct module name = some d ∧
    ∀ t, (OperatorAttr.ofAttrs d.item.attrs).responseType? = some t →
      op.response.Shows p t (p.outputOf key) T

namespace Operator

open OperatorCompile

variable {search : ErrorSearch} {s s' : CompilerState} {d : Declared StructItem} {key : String}

theorem grows_of_ofStruct {r : Except Error Operator}
    (h : (ofStruct search d key).runOn s = (r, s')) : Grows s.table s'.table := by
  have fields (sites : List LocatedField) :=
    meets_ofFields (t := s.table) (compileRules_growing search.program) sites .nil
  cases stages_ofStruct h with
  | unlocated => exact .refl _
  | request _ hrequest => exact (fields _).error hrequest
  | response _ hrequest hresponse =>
    exact ((fields _).ok hrequest).1.trans (SuccessResponse.meets_shows.error hresponse)
  | done _ hrequest hresponse =>
    exact ((fields _).ok hrequest).1.trans (SuccessResponse.meets_shows.ok hresponse).1

theorem shows_of_ofStruct {op : Operator} {t : TypeExpr}
    (h : (ofStruct search d key).runOn s = (.ok op, s'))
    (ht : (OperatorAttr.ofAttrs d.item.attrs).responseType? = some t) :
    op.response.Shows search.program t (search.program.outputOf key) s'.table := by
  cases stages_ofStruct h with
  | done _ _ hresponse => exact (SuccessResponse.meets_shows.ok hresponse).2 t ht

variable {module : List String} {name : String} {op : Operator}

/-- An operator is known once it has been compiled. -/
theorem lookup_of_ok (h : (ofDeclared search module name).runOn s = (.ok op, s')) :
    s'.operators.lookup (qualify module name) = some (.ready op) := by
  cases ends_ofDeclared h with
  | known hl => exact hl
  | compiled => exact lookup_setKey_self

/-- What holds of an operator when it has been compiled, and in every table that grows from the
one it was compiled in. -/
structure Lasting (search : ErrorSearch) (P : SchemaTable → String → Operator → Prop) : Prop where
  ofStruct : ∀ {module name d op s s'}, search.program.findStruct module name = some d →
    (ofStruct search d (qualify module name)).runOn s = (.ok op, s') →
      P s'.table (qualify module name) op
  mono : ∀ {T T' key op}, P T key op → Grows T T' → P T' key op

namespace Lasting

open CompilerState

variable {P : SchemaTable → String → Operator → Prop} (lasting : Lasting search P)

include lasting

theorem known_mono (h : s.Known (P s.table)) (hg : Grows s.table s'.table)
    (hs : ∀ key op, s'.operators.lookup key = some (.ready op) →
      s.operators.lookup key = some (.ready op)) : s'.Known (P s'.table) :=
  fun key op hop => lasting.mono (h key op (hs key op hop)) hg

theorem known_ofDeclared {r : Except Error Operator} (h : s.Known (P s.table))
    (hr : (ofDeclared search module name).runOn s = (r, s')) : s'.Known (P s'.table) := by
  have begun : (setEntry (qualify module name) .inProgress s).Known (P s.table) :=
    Known.setEntry h (by simp)
  have kept {d r s'} (h : Runs search module name s d r s') : s'.Known (P s'.table) :=
    lasting.known_mono begun (grows_of_ofStruct h.runOn_eq) (by simp [h.operators_eq])
  cases ends_ofDeclared hr with
  | known => exact h
  | failed => exact h
  | refused => exact h
  | @compiled d op s₁ h =>
    have hop : P s₁.table (qualify module name) op := lasting.ofStruct h.found h.runOn_eq
    refine Known.setEntry (kept h) ?_
    rintro _ ⟨⟩
    exact hop
  | unlocated h => exact Known.setEntry (kept h) (by simp)
  | dropped h => exact Known.dropEntry (kept h)

theorem known_next (h : s.Known (P s.table)) (call : CompilerCall) :
    (call.next search s).Known (P (call.next search s).table) := by
  cases call with
  | schema call => exact lasting.known_mono h (grows_next call) fun _ _ hop => hop
  | operator op =>
    cases op with
    | group path => exact h
    | type module name => exact lasting.known_ofDeclared h rfl

theorem known_after (h : s.Known (P s.table)) (calls : List CompilerCall) :
    (s.after search calls).Known (P (s.after search calls).table) := by
  induction calls generalizing s with
  | nil => exact h
  | cons call rest ih => exact ih (lasting.known_next h call)

/-- It holds of every operator that is compiled, in every state that calls lead to. -/
theorem of_compile {table : SchemaTable} {memo : ErrorSearch.Memo} {calls : List CompilerCall}
    (h : (compile search (.type module name)).runOn (.after search { table, memo } calls) =
      (.ok op, s')) : P s'.table (qualify module name) op := by
  have begun : ({ table, memo } : CompilerState).Known (P table) := fun key op hop => by
    cases hop
  exact lasting.known_ofDeclared (lasting.known_after begun calls) h _ op (lookup_of_ok h)

end Lasting

theorem lasting_announced (search : ErrorSearch) :
    Lasting search (Announced search.program) where
  ofStruct {module name d _ _ _} hd h := ⟨module, name, d, rfl, hd, fun _ => shows_of_ofStruct h⟩
  mono := fun ⟨module, name, d, hkey, hd, hshows⟩ hg =>
    ⟨module, name, d, hkey, hd, fun t ht => (hshows t ht).mono hg⟩

/-- An operator whose attribute names a type answers with one body, in every state that calls lead
to. It is the file that the output method attaches, or else it has the schema that the type has
where the output method stands. -/
theorem answers_as_announced {table : SchemaTable} {memo : ErrorSearch.Memo}
    {calls : List CompilerCall} {d : Declared StructItem} {t : TypeExpr}
    (hd : search.program.findStruct module name = some d)
    (ht : (OperatorAttr.ofAttrs d.item.attrs).responseType? = some t)
    (hkey : ∀ d' ∈ search.program.structs, qualify d'.module d'.item.name = qualify module name →
      d'.module = module ∧ d'.item.name = name)
    (h : (compile search (.type module name)).runOn (.after search { table, memo } calls) =
      (.ok op, s')) :
    op.response.Shows search.program t (search.program.outputOf (qualify module name))
      s'.table := by
  obtain ⟨module', name', d', heq, hd', hshows⟩ := (lasting_announced search).of_compile h
  obtain ⟨rfl, rfl⟩ := Program.place_of_findStruct hd'
  obtain ⟨rfl, rfl⟩ := hkey d' (List.mem_of_find?_eq_some hd') heq.symm
  cases hd.symm.trans hd'
  exact hshows t ht

section Exports

def attachedReport : Expr := .call (.path { segments := ["Attachment", "new"] } [])
  [.lit (.str "report.pdf"), .lit (.str "application/pdf")]

def describedNumber : Expr :=
  .methodCall (.call (.path { segments := ["Response", "new"] } []) []) "with_schema"
    [.path ["u64"] []] [] []

def reportIn (module : List String) (field : String) : Declared StructItem :=
  ⟨module, [], "Report", [], .named [⟨[], true, some field, .path ["u32"] []⟩]⟩

/-- An operator that answers with a report, as its attribute says. -/
def reporting (name : String) : Declared StructItem :=
  ⟨["users"], [⟨{ segments := ["operator"] },
    .list [.ident "response", .punct '=' false, .literal "\"Report\""]⟩], name, [], .unit⟩

def answering (name : String) (e : Expr) : FnDecl where
  key := "users::" ++ name ++ "::output"
  module := ["users"]
  selfType := some name
  owner := some ("users::" ++ name)
  item :=
    { attrs := [], name := "output", params := [.receiver]
      output := some (.path ["String"] []), body := [.expr [] e false] }

/-- Operators that answer with reports, where the root has other reports. The third has no output
method. -/
def exports : Program where
  structs :=
    [reportIn ["users"] "rows", reportIn [] "title", reporting "List", reporting "Download",
      reporting "Export"]
  fns := [answering "List" describedNumber, answering "Download" attachedReport]

theorem exists_of_runOn {P : Operator → CompilerState → Bool}
    (h : (match (compile search (.type module name)).runOn s with
      | (.ok op, s') => P op s'
      | (.error _, _) => false) = true) :
    ∃ op s', (compile search (.type module name)).runOn s = (.ok op, s') ∧ P op s' = true := by
  rcases hr : (compile search (.type module name)).runOn s with ⟨e | op, s'⟩
  · rw [hr] at h
    cases h
  · rw [hr] at h
    exact ⟨op, s', rfl, h⟩

/-- The list of reports is known already, and was compiled after the reports of the root. -/
theorem answers_as_announced_exports :
    let search := ErrorSearch.ofProgram exports
    let report : TypeExpr := .path ["Report"] []
    let s := CompilerState.after search {}
      [.schema (.type report []), .operator (.type ["users"] "List")]
    ∃ op s', (compile search (.type ["users"] "List")).runOn s = (.ok op, s') ∧
      (op.response.response.content.getD []).map (·.2.reference) =
        [some "#/components/schemas/UsersReport"] ∧
      ∃ media schema, op.response.response.content = some [(media, schema)] ∧
        (exports.compileType report ["users"]).runOn s'.table = (.ok schema, s'.table) := by
  intro search report s
  have hd : search.program.findStruct ["users"] "List" = some (reporting "List") := rfl
  have ht : (OperatorAttr.ofAttrs (reporting "List").item.attrs).responseType? = some report := by
    decide +kernel
  obtain ⟨op, s', hrun, hseen⟩ : ∃ op s',
      (compile search (.type ["users"] "List")).runOn s = (.ok op, s') ∧
        ((op.response.response.content.getD []).map (·.2.reference) ==
          [some "#/components/schemas/UsersReport"]) = true := exists_of_runOn (by decide +kernel)
  obtain ⟨media, schema, hcontent, -, htype⟩ := answers_as_announced hd ht (by decide) hrun
  exact ⟨op, s', hrun, eq_of_beq hseen, media, schema, hcontent, htype rfl⟩

/-- An operator does not answer with the reports of its own module if its output method attaches a
file, and neither if it has no output method. -/
theorem announced_elsewhere :
    let search := ErrorSearch.ofProgram exports
    let report : TypeExpr := .path ["Report"] []
    ∀ name ∈ ["Download", "Export"], ∃ op s',
      search.program.findStruct ["users"] name = some (reporting name) ∧
      (OperatorAttr.ofAttrs (reporting name).item.attrs).responseType? = some report ∧
      (compile search (.type ["users"] name)).runOn {} = (.ok op, s') ∧
      ¬ ∃ media schema, op.response.response.content = some [(media, schema)] ∧
        (exports.compileType report ["users"]).runOn s'.table = (.ok schema, s'.table) := by
  intro search report
  have declared : ∀ name ∈ ["Download", "Export"],
      search.program.findStruct ["users"] name = some (reporting name) := by
    simp only [List.forall_mem_cons]
    exact ⟨rfl, rfl, by simp⟩
  have announced : ∀ name ∈ ["Download", "Export"],
      (OperatorAttr.ofAttrs (reporting name).item.attrs).responseType? = some report := by
    decide +kernel
  have elsewhere : ∀ name ∈ ["Download", "Export"],
      (match (compile search (.type ["users"] name)).runOn {} with
        | (.ok op, s') => (op.response.response.content.getD []).map (·.2.reference) !=
            [((exports.compileType report ["users"]).runOn s'.table).1.toOption.bind (·.reference)]
        | (.error _, _) => false) = true := by
    decide +kernel
  intro name hname
  obtain ⟨op, s', hrun, hseen⟩ := exists_of_runOn (elsewhere name hname)
  refine ⟨op, s', declared name hname, announced name hname, hrun, ?_⟩
  rintro ⟨media, schema, hcontent, htype⟩
  simp [hcontent, htype, Except.toOption] at hseen

end Exports

end Operator

end ServiceContract
