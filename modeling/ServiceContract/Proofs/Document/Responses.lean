import ServiceContract.Proofs.Document.Chains
import ServiceContract.Proofs.Schema.Naming
import ServiceContract.Proofs.StatusError.Buckets

/-! # The errors in responses

The errors of an operation are listed in its responses, each in that of the status it is sent with.
None gets lost on the way from the operators of the chain, and a response that was there before
keeps what it says.
-/

namespace ServiceContract

open Generation

/-- The errors that a response lists, in one line each. -/
def Response.errorLines (r : Response) : List String :=
  match r.extensions.lookup Schema.errorsKey with
  | some (.arr lines) => lines.filterMap fun
    | .str line => some line
    | _ => none
  | _ => []

/-- Errors are filed in the responses of an operation: each in the one of the status that it is
sent with. -/
structure Operation.Files (op : Operation) (formatter : Option ErrorFormatter)
    (errors : List StatusError) (success : SuccessResponse) : Prop where
  /-- No two responses have one key. -/
  increasing : Increasing op.responses
  /-- Over all responses each error is listed, and nothing else is. -/
  lines : (op.responses.flatMap fun r => r.2.errorLines).Perm (errors.map StatusError.summary)
  status : ∀ e ∈ errors, 100 ≤ e.sentWith formatter ∧ e.sentWith formatter ≤ 599 ∧
    ∃ r, op.responses.lookup (Text.decimal (e.sentWith formatter)) = some r
  listed : ∀ r ∈ op.responses, r.2.errorLines.Perm
    ((errors.filter fun e => Text.decimal (e.sentWith formatter) = r.1).map StatusError.summary)
  sorted : ∀ r ∈ op.responses, r.2.errorLines.Pairwise (· ≤ ·)
  /-- The list is the only extension, and there is none without errors. -/
  extensions : ∀ r ∈ op.responses, r.2.extensions =
    if r.2.errorLines = [] then [] else [(Schema.errorsKey, .arr (r.2.errorLines.map .str))]
  /-- The response of success says what it says without errors. -/
  success : ∃ extensions, op.responses.lookup (Text.decimal success.status) =
    some { success.response with extensions }

/-- A response is not made with extensions. -/
theorem Operator.Made.extensions {op : Operator} (h : op.Made) :
    op.response.response.extensions = [] := by
  cases h with
  | group => rfl
  | struct _ _ _ _ hr => rw [hr]; rfl

namespace StatusError

/-- Errors in one line each, sorted. -/
def lines (es : List StatusError) : List String :=
  (es.map summary).mergeSort fun a b => !decide (b < a)

variable {es : List StatusError}

@[simp] theorem lines_nil : lines [] = [] := by simp [lines]

theorem lines_perm (es : List StatusError) : (lines es).Perm (es.map summary) :=
  List.mergeSort_perm _ _

theorem lines_ne_nil (h : es ≠ []) : lines es ≠ [] := fun hnil => by
  have hlen := (lines_perm es).length_eq
  simp [hnil, eq_comm, h] at hlen

theorem sorted_lines : (lines es).Pairwise (· ≤ ·) := by
  have h : (lines es).Pairwise fun a b => (!decide (b < a)) = true := by
    refine List.pairwise_mergeSort (fun a b c hab hbc => ?_) (fun a b => ?_) _
    · simp only [Bool.not_eq_true', decide_eq_false_iff_not, String.not_lt] at *
      exact String.le_trans hab hbc
    · simp only [Bool.or_eq_true, Bool.not_eq_true', decide_eq_false_iff_not, String.not_lt]
      exact String.le_total a b
  exact h.imp fun hab => by
    simpa only [Bool.not_eq_true', decide_eq_false_iff_not, String.not_lt] using hab

end StatusError

namespace Generation

open StatusError

variable {formatter : Option ErrorFormatter} {es : List StatusError} {r : Response}
  {rs : List (String × Response)} {buckets : List (Nat × List StatusError)} {error : Schema}
  {schema : Option Schema} {e : Endpoint} {key : String} {n : Nat}

/-- What a response lists that had no extension before. -/
theorem extensions_withErrors (h : r.extensions = []) :
    (withErrors es r).extensions = [(Schema.errorsKey, .arr ((lines es).map .str))] := by
  simp [withErrors, h, lines, insertSorted]

theorem errorLines_withErrors (h : r.extensions = []) :
    (withErrors es r).errorLines = lines es := by
  rw [Response.errorLines, extensions_withErrors h]
  simp [List.filterMap_map]

theorem lookup_addErrors {bucket : Nat × List StatusError} :
    (addErrors error rs bucket).lookup key =
      if key = Text.decimal bucket.1 then
        some (withErrors bucket.2 ((rs.lookup key).getD (errorResponse error bucket.1)))
      else rs.lookup key := by
  rw [addErrors, lookup_insertSorted]
  split
  · next hk => rw [hk]
  · rfl

/-- Each bucket goes to the response of its status, and all other responses stay as they are. -/
theorem lookup_foldl_addErrors (hb : buckets.Pairwise fun a b => a.1 < b.1) :
    (buckets.foldl (addErrors error) rs).lookup (Text.decimal n) =
      match buckets.lookup n with
      | some es =>
        some (withErrors es ((rs.lookup (Text.decimal n)).getD (errorResponse error n)))
      | none => rs.lookup (Text.decimal n) := by
  induction buckets generalizing rs with
  | nil => rfl
  | cons bucket rest ih =>
    obtain ⟨m, es⟩ := bucket
    obtain ⟨hm, hr⟩ := List.pairwise_cons.mp hb
    rw [List.foldl_cons, ih hr, lookup_addErrors, List.lookup_cons]
    by_cases hn : n = m
    · have hnone : rest.lookup n = none := List.lookup_eq_none_iff.mpr fun b hb =>
        bne_iff_ne.mpr (hn ▸ Nat.ne_of_lt (hm b hb))
      simp [hn, hn ▸ hnone]
    · rw [if_neg fun h => hn (Text.decimal_injective h), beq_false_of_ne hn]

theorem mem_keys_foldl_addErrors
    (h : key ∈ (buckets.foldl (addErrors error) rs).map Prod.fst) :
    key ∈ rs.map Prod.fst ∨ ∃ n, key = Text.decimal n := by
  induction buckets generalizing rs with
  | nil => exact .inl h
  | cons bucket rest ih =>
    rcases ih h with h | h
    · exact (mem_keys_insertSorted.mp h).elim (fun h => .inr ⟨_, h⟩) .inl
    · exact .inr h

/-- Every key of a response is a status. -/
theorem eq_decimal_of_mem_responses (h : key ∈ (responses schema formatter e).map Prod.fst) :
    ∃ n, key = Text.decimal n := by
  have success : key ∈ [(Text.decimal e.leaf.response.status, e.leaf.response.response)].map
      Prod.fst → ∃ n, key = Text.decimal n := fun h => ⟨_, List.mem_singleton.mp h⟩
  unfold responses at h
  cases schema with
  | none => exact success h
  | some error => exact (mem_keys_foldl_addErrors h).elim success id

/-- The response of a status is that of success, if this has the status, or one for errors, and
lists the errors that are sent with the status. -/
theorem exists_lookup_responses (formatter : Option ErrorFormatter)
    (hids : (identities e.statusErrors).Nodup) (hschema : schema = none → e.statusErrors = []) :
    ∃ error, ∀ n, (responses schema formatter e).lookup (Text.decimal n) =
      let own := if n = e.leaf.response.status then some e.leaf.response.response else none
      if withStatus formatter n e.statusErrors = [] then own
      else some (withErrors (withStatus formatter n e.statusErrors)
        (own.getD (errorResponse error n))) := by
  have success : ∀ n, [(Text.decimal e.leaf.response.status, e.leaf.response.response)].lookup
      (Text.decimal n) =
        if n = e.leaf.response.status then some e.leaf.response.response else none := fun n => by
    simp only [lookup_cons_ite, Text.decimal_injective.eq_iff, List.lookup_nil]
  unfold responses
  cases schema with
  | none => exact ⟨{}, fun n => by simp [hschema rfl, withStatus, success]⟩
  | some error =>
    refine ⟨error, fun n => ?_⟩
    have parts := parts_bucketErrors formatter hids
    rw [lookup_foldl_addErrors parts.increasing, parts.lookup, success]
    by_cases h : withStatus formatter n e.statusErrors = [] <;> simp [h]

/-- A response lists the errors that are sent with its status, in its only extension. -/
theorem exists_errorLines (hm : e.Made) (hids : (identities e.statusErrors).Nodup)
    (hschema : schema = none → e.statusErrors = []) {x : String × Response}
    (hx : x ∈ responses schema formatter e) :
    ∃ n, x.1 = Text.decimal n ∧
      x.2.errorLines = lines (withStatus formatter n e.statusErrors) ∧
      x.2.extensions = if x.2.errorLines = [] then []
        else [(Schema.errorsKey, .arr (x.2.errorLines.map .str))] := by
  obtain ⟨error, hlookup⟩ := exists_lookup_responses formatter hids hschema
  obtain ⟨n, hn⟩ := eq_decimal_of_mem_responses (List.mem_map_of_mem hx)
  have hfound := lookup_of_mem (kept_responses hm).1.nodup hx
  rw [hn, hlookup] at hfound
  have hsuccess := hm.leaf.extensions
  refine ⟨n, hn, ?_⟩
  by_cases hnil : withStatus formatter n e.statusErrors = []
  · have hown : x.2.extensions = [] := by
      by_cases hs : n = e.leaf.response.status
      · simp only [hnil, if_true, if_pos hs, Option.some.injEq] at hfound
        rw [← hfound, hsuccess]
      · simp [hnil, hs] at hfound
    have hlines : x.2.errorLines = [] := by simp [Response.errorLines, hown]
    rw [hnil, hlines, hown]
    simp
  · simp only [if_neg hnil, Option.some.injEq] at hfound
    have hbase : ((if n = e.leaf.response.status then some e.leaf.response.response
        else none).getD (errorResponse error n)).extensions = [] := by
      by_cases hs : n = e.leaf.response.status
      · simp [hs, hsuccess]
      · simp [hs, errorResponse]
    rw [← hfound, errorLines_withErrors hbase, extensions_withErrors hbase,
      if_neg (lines_ne_nil hnil)]
    exact ⟨rfl, rfl⟩

/-- The operation of an endpoint files the errors of this endpoint. -/
theorem files_operation {p : Program} (hm : e.Made) (hids : (identities e.statusErrors).Nodup)
    (hschema : schema = none → e.statusErrors = []) :
    (operation schema (ErrorFormatter.detect? p) e).Files (ErrorFormatter.detect? p)
      e.statusErrors e.leaf.response := by
  have hstatus := isStatus_sentWith p
  generalize ErrorFormatter.detect? p = formatter at *
  obtain ⟨error, hlookup⟩ := exists_lookup_responses formatter hids hschema
  have hincreasing : Increasing (responses schema formatter e) := (kept_responses hm).1
  have hsent : ∀ x ∈ e.statusErrors, ∃ r, (responses schema formatter e).lookup
      (Text.decimal (x.sentWith formatter)) = some r := fun x hx => by
    have hne : withStatus formatter (x.sentWith formatter) e.statusErrors ≠ [] :=
      List.ne_nil_of_mem (mem_withStatus.mpr ⟨hx, rfl⟩)
    rw [hlookup]
    exact ⟨_, if_neg hne⟩
  have hlisted : ∀ x ∈ responses schema formatter e, x.2.errorLines.Perm
      ((e.statusErrors.filter fun y => Text.decimal (y.sentWith formatter) = x.1).map
        summary) := fun x hx => by
    obtain ⟨n, hn, hlines, -⟩ := exists_errorLines hm hids hschema hx
    rw [hlines, hn]
    simpa only [Text.decimal_injective.eq_iff, withStatus] using
      lines_perm (withStatus formatter n e.statusErrors)
  refine ⟨hincreasing, ?_, fun x hx => ⟨(hstatus x).1, (hstatus x).2, hsent x hx⟩, hlisted,
    fun x hx => ?_, fun x hx => ?_, ?_⟩
  · have hkeys : ∀ x ∈ e.statusErrors, Text.decimal (x.sentWith formatter) ∈
        (responses schema formatter e).map Prod.fst := fun x hx => by
      obtain ⟨r, hr⟩ := hsent x hx
      exact mem_keys_of_lookup hr
    have hparted := (perm_flatMap_filter hincreasing.nodup hkeys).map summary
    rw [List.map_flatMap, List.flatMap_map] at hparted
    exact (List.Perm.flatMap_left _ hlisted).trans hparted
  · obtain ⟨n, -, hlines, -⟩ := exists_errorLines hm hids hschema hx
    rw [hlines]
    exact sorted_lines
  · obtain ⟨-, -, -, hextensions⟩ := exists_errorLines hm hids hschema hx
    exact hextensions
  · show ∃ extensions, (responses schema formatter e).lookup _ = _
    rw [hlookup]
    dsimp only
    rw [if_pos rfl]
    split
    · exact ⟨e.leaf.response.response.extensions, rfl⟩
    · exact ⟨_, rfl⟩

/-- Every operation of a generated document comes of a route, whose operators were compiled when its
turn came. The errors of middleware and of the last operator, each identity once, are filed in its
responses. -/
theorem ofProgram_files {p : Program} {config : Config} {g : Generation}
    (h : ofProgram p config = .ok g) :
    ∃ tree, RouteTree.ofProgram p config.entryPoints = .ok tree ∧
      ∀ o ∈ g.document.operations, ∃ r front leaf,
        Compiles (.ofProgram p) {} tree.routes r (front ++ [leaf]) ∧
        o.2.1 = (Endpoint.fold (front ++ [leaf]) r.label).path ∧
        Method.ofName? (leaf.method.getD "GET") = some o.1 ∧ o.2.2.operationId = leaf.id ∧
        o.2.2.Files (ErrorFormatter.detect? p)
          (firsts ((front.filter (·.middleware) ++ [leaf]).flatMap (·.statusErrors)))
          leaf.response := by
  obtain ⟨tree, s', ht, hr⟩ := ofProgram_eq_ok.mp h
  obtain ⟨schema, hops⟩ := exists_compiles ht hr
  refine ⟨tree, ht, fun o ho => ?_⟩
  obtain ⟨r, front, leaf, hc, hmethod, heq, hm, hschema⟩ := hops o ho
  have hmethod : Method.ofName? (leaf.method.getD "GET") = some o.1 := by
    simpa [Endpoint.fold] using hmethod
  have hids : (identities (Endpoint.fold (front ++ [leaf]) r.label).statusErrors).Nodup := by
    rw [Endpoint.statusErrors_fold, ← merge_nil_left]
    exact nodup_merge List.nodup_nil
  have hfiles := files_operation (p := p) hm hids hschema
  rw [Endpoint.statusErrors_fold, Endpoint.leaf_fold] at hfiles
  refine ⟨r, front, leaf, hc, ?_, hmethod, ?_, ?_⟩
  · rw [heq]
  · rw [heq, operation, Endpoint.leaf_fold]
  · rw [heq]
    exact hfiles

section Guarded

/-- A statement that mentions an error. -/
def raises (error : String) : Source.Stmt := .expr [] (pathOf ["UserErr", error]) true

/-- Behind middleware, which has an error of its own, there is an operator with this error and with
one that has the status of its response. -/
def guarded : Program where
  structs := [structOf "Guard" .unit, structOf "Get" .unit]
  enums := [⟨[],
    { attrs := [⟨{ segments := ["status_error"] }, .word⟩], name := "UserErr", typeParams := []
      variants :=
        [⟨[], "Forbidden", .unit, some (.lit (.int false 403000001))⟩,
         ⟨[], "Gone", .unit, some (.lit (.int false 204000001))⟩] }⟩]
  fns :=
    [methodIn "Guard" "context_key" [], methodIn "Guard" "output" [raises "Forbidden"],
     methodIn "Get" "output" [raises "Gone", raises "Forbidden"],
     fnIn [] "main"
      [.binding (.name "root") [] (some (routerOf (pathOf ["Guard"]))) none,
       registerOf "root" (routerOf (pathOf ["Get"])), serveOf (pathOf ["root"])]]

/-- Both errors are filed, one of them in the response of success. -/
theorem ofProgram_files_guarded : ∃ g, ofProgram guarded {} = .ok g ∧
    ∃ o ∈ g.document.operations, ∃ errors success,
      o.2.2.responses.map (fun r => (r.1, r.2.errorLines)) =
        [("204", ["@StatusErr[Gone][204000001][Gone]"]),
         ("403", ["@StatusErr[Forbidden][403000001][Forbidden]"])] ∧
      o.2.2.Files (ErrorFormatter.detect? guarded) errors success := by
  obtain ⟨g, hg, hlines⟩ : ∃ g, ofProgram guarded {} = .ok g ∧
      (g.document.operations.map (fun o => o.2.2.responses.map fun r => (r.1, r.2.errorLines)) ==
        [[("204", ["@StatusErr[Gone][204000001][Gone]"]),
          ("403", ["@StatusErr[Forbidden][403000001][Forbidden]"])]]) = true :=
    exists_ofProgram_of_inOrder? (by decide +kernel)
  obtain ⟨_, -, hfiles⟩ := ofProgram_files hg
  obtain ⟨o, hops, heq⟩ := List.map_eq_singleton_iff.mp (eq_of_beq hlines)
  have ho : o ∈ g.document.operations := hops ▸ List.mem_cons_self
  obtain ⟨_, _, _, -, -, -, -, hfiled⟩ := hfiles o ho
  exact ⟨g, hg, o, ho, _, _, heq, hfiled⟩

end Guarded

end Generation

end ServiceContract
