import Mathlib.Data.List.Induction
import ServiceContract.Proofs.Route.Order

/-! # Arguments of calls

A call from an entry point gives the scopes among its arguments to the parameters at their places.
The places of parameters do not count the receiver. Where the receiver is handed over as the first
argument, the parameters get the arguments in front of theirs.
-/

namespace ServiceContract

open Source

/-- The names that the parameters of a function bind. -/
def FnDecl.boundNames (f : FnDecl) : List String := f.paramNames.filterMap id

/-- Rust's rules for the parameters of a function: only the first one may be the receiver, and no
name is bound twice. -/
structure FnDecl.Regular (f : FnDecl) : Prop where
  receiver : .receiver ∉ f.item.params.tail
  names : f.boundNames.Nodup

namespace FnDecl

variable {f : FnDecl} {i j : Nat} {name : String} {params : List Param}

/-- Without a receiver all parameters count. -/
theorem paramName?_iff (h : .receiver ∉ f.item.params) :
    f.paramName? i = some name ↔ f.item.params[i]? = some (.typed (some name)) := by
  rw [paramName?, paramNames]
  generalize f.item.params = params at h
  induction params generalizing i with
  | nil => simp
  | cons param params ih =>
    obtain ⟨hparam, hparams⟩ := not_or.mp (mt List.mem_cons.mpr h)
    cases param with
    | receiver => exact absurd rfl hparam
    | typed other =>
      cases i with
      | zero => simp
      | succ i => simpa using ih hparams

/-- Behind a receiver the places of parameters are one less. -/
theorem paramName?_iff_of_receiver (h : f.Regular) (hf : f.item.params.head? = some .receiver) :
    f.paramName? i = some name ↔ f.item.params[i + 1]? = some (.typed (some name)) := by
  obtain ⟨rest, hrest⟩ := List.head?_eq_some_iff.mp hf
  have hnames : f.paramName? i =
      { f with item := { f.item with params := rest } : FnDecl }.paramName? i := by
    rw [paramName?, paramNames, hrest]
    rfl
  have hnone : .receiver ∉ rest := by simpa [hrest] using h.receiver
  rw [hnames, paramName?_iff hnone, hrest, List.getElem?_cons_succ]

theorem Regular.not_mem (h : f.Regular) (hf : f.item.params.head? ≠ some .receiver) :
    .receiver ∉ f.item.params := by
  have hreceiver := h.receiver
  cases hparams : f.item.params with
  | nil => exact List.not_mem_nil
  | cons param rest =>
    rw [hparams] at hf hreceiver
    exact List.not_mem_cons_of_ne_of_not_mem (fun he => hf (congrArg some he.symm)) hreceiver

theorem Regular.paramName?_inj (h : f.Regular) (hi : f.paramName? i = some name)
    (hj : f.paramName? j = some name) : i = j := by
  have hdiffer := List.pairwise_filterMap.mp h.names
  obtain ⟨hilt, hi⟩ := List.getElem?_eq_some_iff.mp (Option.join_eq_some_iff.mp hi)
  obtain ⟨hjlt, hj⟩ := List.getElem?_eq_some_iff.mp (Option.join_eq_some_iff.mp hj)
  have hne : ∀ {i j} (hi : i < f.paramNames.length) (hj : j < f.paramNames.length), i < j →
      f.paramNames[i] = some name → f.paramNames[j] ≠ some name := fun hi hj hlt hin hjn =>
    List.pairwise_iff_getElem.mp hdiffer _ _ hi hj hlt name hin name hjn rfl
  rcases Nat.lt_trichotomy i j with hlt | heq | hlt
  · exact absurd hj (hne hilt hjlt hlt hi)
  · exact heq
  · exact absurd hi (hne hjlt hilt hlt hj)

end FnDecl

namespace Body

/-- The function that a call means, if it does not make a router, serve, register or attach. -/
def callee? (names : Names) : Expr → Option FnDecl
  | .call g _ =>
    match calleePath? g with
    | some segments =>
      if makesRouter segments || segments.getLast?.any isServe then none
      else names.function? segments
    | none => none
  | .methodCall e name _ _ _ =>
    if name == "register" || name == "attach" || keepingMethods.contains name || isServe name then
      none
    else if isSelf e then names.method? name
    else none
  | _ => none

/-- What is done before a function is called: its arguments are evaluated. -/
def handed (names : Names) : Expr → BodyScript (List (Option ScopeId))
  | .call _ args => exprs names args
  | .methodCall e _ _ _ args => do
    let _ ← expr names e
    exprs names args
  | _ => return []

/-- The parameters that Rust passes the arguments of a call to, one after the other. The receiver is
an argument only of a call by path. -/
def passed (f : FnDecl) : Expr → List Param
  | .methodCall _ _ _ _ _ => f.item.params.tail
  | _ => f.item.params

/-- Whether the first argument of a call is passed to the receiver. -/
def handsReceiver (f : FnDecl) : Expr → Bool
  | .methodCall _ _ _ _ _ => false
  | _ => f.item.params.head? == some .receiver

/-- Rust's rule for calls of methods: only a function with a receiver is called as one. -/
def Suits (f : FnDecl) : Expr → Prop
  | .methodCall _ _ _ _ _ => f.item.params.head? = some .receiver
  | _ => True

variable {names : Names} {e : Expr} {f : FnDecl}

/-- A call first evaluates its arguments, whatever they are. -/
theorem expr_eq_handed (h : callee? names e = some f) :
    expr names e = handed names e >>= call f := by
  cases e with
  | call g args =>
    simp only [callee?] at h
    split at h
    · next segments hpath =>
      split at h
      · cases h
      · next hname =>
        simp only [Bool.or_eq_true, not_or, Bool.not_eq_true] at hname
        rw [expr, hpath]
        simp only [handed, h, hname, if_false, Bool.false_eq_true]
    · cases h
  | methodCall e name types inner args =>
    simp only [callee?] at h
    split at h
    · cases h
    · next hname =>
      simp only [Bool.or_eq_true, not_or, Bool.not_eq_true] at hname
      obtain ⟨⟨⟨hregister, hattach⟩, hkeeping⟩, hserve⟩ := hname
      rw [expr]
      simp only [handed, h, hregister, hattach, hkeeping, hserve, if_false, bind_assoc,
        Bool.false_eq_true]
  | _ => cases h

end Body

namespace Replay

open ReplayState

section Carrying

instance : LawfulMonad Replay := .mk' _
  (fun x => funext fun s => Prod.ext rfl (List.append_nil _))
  (fun _ _ => rfl)
  (fun x f g => funext fun s => by
    show (_, _) = (_, _)
    simp [after_append])

variable {α β : Type} {jump : Jump → Replay (Option ScopeId)} {rights : Rights}

theorem script_bind (x : Script α) (f : α → Script β) :
    script jump rights (x.bind f) = script jump rights x >>= fun a => script jump rights (f a) := by
  induction x with
  | done a => simp [Script.bind, script]
  | make operators next ih | static name next ih | call g args next ih =>
    simp [Script.bind, script, ih]
  | link parent child next ih | attach id operators next ih => simp [Script.bind, script, ih]
  | serve id next ih =>
    cases h : rights.serves <;> simp [Script.bind, script, ih, h]

/-- A call first evaluates its arguments, and then goes to the function. -/
theorem script_call {names : Names} {e : Expr} {f : FnDecl} (h : Body.callee? names e = some f)
    (locals : Locals) :
    script jump rights (Body.expr names e locals) = (do
      let (scopes, locals) ← script jump rights (Body.handed names e locals)
      let scope ← jump (.function f (wayOf rights f scopes))
      return (scope, locals)) := by
  rw [Body.expr_eq_handed h]
  exact script_bind (Body.handed names e locals) fun (scopes, locals) => Body.call f scopes locals

end Carrying

section Binding

variable {f : FnDecl} {e : Expr} {scopes : List (Option ScopeId)} {name : String} {id : ScopeId}
  {rights : Rights}

theorem bindParams_append {scope : Option ScopeId} :
    bindParams f (scopes ++ [scope]) =
      match scope, f.paramName? scopes.length with
      | some id, some name => setKey name id (bindParams f scopes)
      | _, _ => bindParams f scopes := by
  rw [bindParams, List.zipIdx_append, List.foldl_append, Nat.zero_add]
  rfl

/-- Only parameters are bound. -/
theorem mem_boundNames_of_bindParams :
    ∀ n ∈ (bindParams f scopes).map Prod.fst, n ∈ f.boundNames := by
  refine List.foldlRecOn
    (motive := fun bound : Locals => ∀ n ∈ bound.map Prod.fst, n ∈ f.boundNames) _ _
    (fun _ hn => nomatch hn) fun bound hb e _ n hn => ?_
  dsimp only at hn
  split at hn
  · next id name _ hname =>
    rw [map_fst_setKey] at hn
    have hmem : name ∈ f.boundNames := by
      rw [FnDecl.paramName?, Option.join_eq_some_iff] at hname
      exact List.mem_filterMap.mpr ⟨_, List.mem_of_getElem? hname, rfl⟩
    split at hn
    · exact hb n hn
    · rcases List.mem_append.mp hn with hn | hn
      · exact hb n hn
      · exact List.mem_singleton.mp hn ▸ hmem
  · exact hb n hn

theorem params_wayOf (h : rights.binds = true) :
    (wayOf rights f scopes).params = bindParams f scopes := by
  rw [wayOf, if_pos h]
  cases bindParams f scopes <;> rfl

/-- A parameter stands for the scope that is the argument at its place. -/
theorem lookup_bindParams (h : f.Regular) :
    (bindParams f scopes).lookup name = some id ↔
      ∃ i, scopes[i]? = some (some id) ∧ f.paramName? i = some name := by
  -- the places of a name are one place, so the last argument takes nothing from those before
  induction scopes using List.reverseRecOn with
  | nil => simp [bindParams]
  | append_singleton scopes scope ih =>
    have hsplit : (∃ i, (scopes ++ [scope])[i]? = some (some id) ∧ f.paramName? i = some name) ↔
        (∃ i, scopes[i]? = some (some id) ∧ f.paramName? i = some name) ∨
          (scope = some id ∧ f.paramName? scopes.length = some name) := by
      constructor
      · rintro ⟨i, hi, hname⟩
        rw [List.getElem?_append] at hi
        split at hi
        · exact .inl ⟨i, hi, hname⟩
        · obtain ⟨hlt, hi⟩ := List.getElem?_eq_some_iff.mp hi
          obtain rfl : i = scopes.length := by
            simp only [List.length_singleton] at hlt
            omega
          exact .inr ⟨by simpa using hi, hname⟩
      · rintro (⟨i, hi, hname⟩ | ⟨rfl, hname⟩)
        · obtain ⟨hlt, -⟩ := List.getElem?_eq_some_iff.mp hi
          exact ⟨i, by rwa [List.getElem?_append_left hlt], hname⟩
        · exact ⟨scopes.length, by simp, hname⟩
    rw [hsplit, ← ih, bindParams_append]
    split
    · next last other hother =>
      rw [lookup_setKey, hother]
      split
      · next heq =>
        subst heq
        have hnone : (bindParams f scopes).lookup name ≠ some id := fun hl => by
          obtain ⟨i, hi, hname⟩ := ih.mp hl
          obtain ⟨hlt, -⟩ := List.getElem?_eq_some_iff.mp hi
          exact Nat.ne_of_lt hlt (h.paramName?_inj hname hother)
        simp [hnone]
      · next hne => simp [Ne.symm hne]
    · next hnot =>
      refine (or_iff_left ?_).symm
      rintro ⟨rfl, hname⟩
      exact hnot _ _ rfl hname

/-- Whether a scope is the argument that Rust passes to a parameter. -/
def Passes (f : FnDecl) (e : Expr) (scopes : List (Option ScopeId)) (name : String)
    (id : ScopeId) : Prop :=
  ∃ i : Nat, scopes[i]? = some (some id) ∧
    (Body.passed f e)[i]? = some (Param.typed (some name))

/-- Where no receiver is handed over, the parameter at a place gets the argument at this place. -/
theorem passes_iff (h : f.Regular) (hsuits : Body.Suits f e)
    (hreceiver : Body.handsReceiver f e = false) :
    Passes f e scopes name id ↔
      ∃ i, scopes[i]? = some (some id) ∧ f.paramName? i = some name := by
  have hnames : ∀ i, f.paramName? i = some name ↔
      (Body.passed f e)[i]? = some (Param.typed (some name)) := by
    intro i
    cases e with
    | methodCall =>
      rw [FnDecl.paramName?_iff_of_receiver h hsuits, ← List.getElem?_tail]
      rfl
    | _ => exact FnDecl.paramName?_iff (h.not_mem (ne_of_beq_false hreceiver))
  simp only [Passes, hnames]

/-- Where one is, the parameter gets the argument at the next place. -/
theorem passes_iff_of_receiver (h : f.Regular) (hreceiver : Body.handsReceiver f e = true) :
    Passes f e scopes name id ↔
      ∃ i, scopes[i + 1]? = some (some id) ∧ f.paramName? i = some name := by
  obtain ⟨hpassed, hhead⟩ : Body.passed f e = f.item.params ∧
      f.item.params.head? = some .receiver := by
    cases e with
    | methodCall => cases hreceiver
    | _ => exact ⟨rfl, eq_of_beq hreceiver⟩
  simp only [Passes, hpassed, FnDecl.paramName?_iff_of_receiver h hhead]
  constructor
  · rintro ⟨i, hi, hname⟩
    cases i with
    | zero =>
      rw [← List.head?_eq_getElem?, hhead] at hname
      cases hname
    | succ i => exact ⟨i, hi, hname⟩
  · rintro ⟨i, hi, hname⟩
    exact ⟨i + 1, hi, hname⟩

/-- A call of an entry point binds the parameters as Rust passes the arguments, exactly if no
receiver is handed over, or no parameter with a name has another scope for its own argument than for
the one in front of it. -/
theorem binds_as_passed_iff (h : f.Regular) (hsuits : Body.Suits f e) :
    (∀ name id, (bindParams f scopes).lookup name = some id ↔ Passes f e scopes name id) ↔
      (Body.handsReceiver f e = true →
        ∀ i name, f.paramName? i = some name → scopes[i]?.join = scopes[i + 1]?.join) := by
  simp only [lookup_bindParams h]
  cases hreceiver : Body.handsReceiver f e with
  | false => simp [passes_iff h hsuits hreceiver]
  | true =>
    simp only [passes_iff_of_receiver h hreceiver, forall_const]
    constructor
    · refine fun hall i name hname => Option.ext fun id => ?_
      have hplace : ∀ k, (∃ j, scopes[j + k]? = some (some id) ∧ f.paramName? j = some name) ↔
          scopes[i + k]?.join = some id := fun k => by
        rw [Option.join_eq_some_iff]
        exact ⟨fun ⟨j, hj, hother⟩ => h.paramName?_inj hname hother ▸ hj, fun hi => ⟨i, hi, hname⟩⟩
      exact (hplace 0).symm.trans ((hall name id).trans (hplace 1))
    · refine fun hall name id => exists_congr fun i => and_congr_left fun hname => ?_
      rw [← Option.join_eq_some_iff, ← Option.join_eq_some_iff, hall i name hname]

end Binding

end Replay

/-- Whether it is the body of an entry point, in its turn, that goes on. -/
def Replay.InTurn (entry : FnDecl → Prop) (js : List Jump) : Prop :=
  ∃ g, entry g ∧ js.head? = some (.function g .entry)

/-- Whether a jump may come up: only in its turn is a function evaluated as an entry point, and only
then are parameters of others bound. -/
def Jump.Proper (entry : FnDecl → Prop) (js : List Jump) : Jump → Prop
  | .function g .entry => entry g
  | .function f (.bound params) =>
    Replay.InTurn entry js ∧ ∃ scopes, params = Replay.bindParams f scopes
  | _ => True

namespace Replay

open ReplayState

section Turns

variable {p : Program} {entry : FnDecl → Prop} {t : Task} {j : Jump} {js : List Jump}
  {s : ReplayState} {m : Move} {ms ms' : List Move} {a : Option ScopeId} {f : FnDecl} {way : Way}
  {rights : Rights}

/-- A body is begun with bound parameters only by a call from the body of an entry point, and it is
carried out to its end with these names. -/
structure Begun (p : Program) (entry : FnDecl → Prop) (js : List Jump) (s : ReplayState)
    (f : FnDecl) (way : Way) (rest : List Move) : Prop where
  bound : ∀ params, way = .bound params →
    InTurn entry js ∧ ∃ scopes, params = bindParams f scopes
  run : ∃ inner a after, rest = inner ++ .finish f way a :: after ∧
    Runs p (.script way.rights (f.script p way.params)) s inner a

/-- All functions that are begun in a list of moves are begun so. -/
def AllBegun (p : Program) (entry : FnDecl → Prop) : List Jump → ReplayState → List Move → Prop
  | _, _, [] => True
  | js, s, m :: ms => (∀ f way, m = .begin f way → Begun p entry js (s.apply m) f way ms) ∧
    AllBegun p entry (m.opened js) (s.apply m) ms

theorem AllBegun.append (h : AllBegun p entry js s ms)
    (h' : AllBegun p entry (opened js ms) (s.after ms) ms') :
    AllBegun p entry js s (ms ++ ms') := by
  induction ms generalizing js s with
  | nil => exact h'
  | cons m ms ih =>
    refine ⟨fun f way hm => ⟨(h.1 f way hm).bound, ?_⟩, ih h.2 h'⟩
    obtain ⟨inner, a, after, hms, hrun⟩ := (h.1 f way hm).run
    exact ⟨inner, a, after ++ ms', by simp [hms], hrun⟩

theorem AllBegun.of_getElem? {k : Nat} (h : AllBegun p entry js s ms)
    (hk : ms[k]? = some (.begin f way)) :
    Begun p entry (opened js (ms.take k)) (s.after (ms.take (k + 1))) f way (ms.drop (k + 1)) := by
  induction ms generalizing js s k with
  | nil => cases hk
  | cons m ms ih =>
    cases k with
    | zero =>
      obtain rfl : m = .begin f way := Option.some.inj hk
      exact h.1 f way rfl
    | succ k => exact ih h.2 hk

/-- Moves that begin nothing. -/
theorem AllBegun.of_not_begin (hm : ∀ f way, m ≠ .begin f way)
    (h : AllBegun p entry (m.opened js) (s.apply m) ms) : AllBegun p entry js s (m :: ms) :=
  ⟨fun f way he => absurd he (hm f way), h⟩

/-- Whether a task may come up. -/
def Task.Proper (entry : FnDecl → Prop) (js : List Jump) : Task → Prop
  | .script rights _ => rights.binds = true → InTurn entry js
  | .jump j => j.Proper entry js
  | .turns js' => ∀ j ∈ js', j.Proper entry js

theorem proper_wayOf {scopes : List (Option ScopeId)}
    (h : rights.binds = true → InTurn entry js) :
    (Jump.function f (wayOf rights f scopes)).Proper entry js := by
  unfold wayOf
  split
  · trivial
  · next hne =>
    cases hbinds : rights.binds with
    | true => exact ⟨h hbinds, scopes, if_pos rfl⟩
    | false => exact absurd (if_neg (hbinds ▸ Bool.false_ne_true)) hne

theorem Runs.allBegun (h : Runs p t s ms a) (ht : t.Proper entry js) :
    AllBegun p entry js s ms := by
  induction h generalizing js with
  | done | known | busy | asked | undeclared | idle => trivial
  | move hm _ ih =>
    have hkept := hm.opened js
    refine .of_not_begin (fun f way he => ?_) (hkept.symm ▸ ih ht)
    subst he
    cases hm
  | unserved _ _ ih => exact ih ht
  | static hjump _ ih ih' => exact (ih trivial).append (by rw [hjump.opened]; exact ih' ht)
  | call hjump _ ih ih' => exact (ih (proper_wayOf ht)).append (by rw [hjump.opened]; exact ih' ht)
  | @body f way s ms a _ _ hbody ih =>
    have hinner : Task.Proper entry (.function f way :: js)
        (.script way.rights (f.script p way.params)) := fun hbinds => by
      cases way with
      | entry => exact ⟨f, ht, rfl⟩
      | called | bound | remaining => cases hbinds
    refine ⟨fun g w he => ?_, (ih hinner).append (.of_not_begin nofun trivial)⟩
    cases he
    exact ⟨fun params hw => by subst hw; exact ht, ms, a, [], rfl, hbody⟩
  | value _ _ _ ih =>
    exact .of_not_begin nofun ((ih nofun).append (.of_not_begin nofun trivial))
  | turn hjump _ ih ih' =>
    obtain ⟨hj, hjs⟩ := List.forall_mem_cons.mp ht
    exact (ih hj).append (by rw [hjump.opened]; exact ih' hjs)

theorem proper_turns (p : Program) (entryPoints : List String) :
    ∀ j ∈ turns p entryPoints, j.Proper (· ∈ entries p entryPoints) [] := by
  intro j hj
  simp only [turns, List.mem_append, List.mem_map] at hj
  rcases hj with (⟨d, -, rfl⟩ | ⟨f, hf, rfl⟩) | ⟨f, -, rfl⟩
  · trivial
  · exact hf
  · trivial

theorem allBegun_moves (p : Program) (entryPoints : List String) :
    AllBegun p (· ∈ entries p entryPoints) [] {} (moves p entryPoints) :=
  (runs_moves p entryPoints).allBegun (proper_turns p entryPoints)

end Turns

/-- A call evaluated in the turn of an entry point evaluates its arguments and then goes to the
function, and each named parameter stands for the scope that is the argument at its place, counted
without the receiver. This is the argument that Rust passes to it, exactly if the call does not hand
the receiver over or nothing depends on it, since every argument is the same scope as the one behind
it where a named parameter is. Bodies are given names in this way only, by calls from the body of an
entry point, and are carried out with them. -/
theorem arguments_bound (p : Program) (entryPoints : List String) :
    (∀ jump names e f, Body.callee? names e = some f → ∀ locals,
      script jump Way.entry.rights (Body.expr names e locals) = (do
        let (scopes, locals) ← script jump Way.entry.rights (Body.handed names e locals)
        let scope ← jump (.function f (wayOf Way.entry.rights f scopes))
        return (scope, locals))) ∧
    (∀ (f : FnDecl) scopes, f.Regular →
      (∀ name id, (wayOf Way.entry.rights f scopes).params.lookup name = some id ↔
        ∃ i, scopes[i]? = some (some id) ∧ f.paramName? i = some name) ∧
      ∀ e, Body.Suits f e →
        ((∀ name id, (wayOf Way.entry.rights f scopes).params.lookup name = some id ↔
            Passes f e scopes name id) ↔
          (Body.handsReceiver f e = true → ∀ i name, f.paramName? i = some name →
            scopes[i]?.join = scopes[i + 1]?.join))) ∧
    ∀ k f way, (moves p entryPoints)[k]? = some (.begin f way) →
      Begun p (· ∈ entries p entryPoints) (opened [] ((moves p entryPoints).take k))
        (during p entryPoints (k + 1)) f way ((moves p entryPoints).drop (k + 1)) := by
  have hentry : ∀ f scopes, (wayOf Way.entry.rights f scopes).params = bindParams f scopes :=
    fun _ _ => params_wayOf rfl
  refine ⟨fun _ _ _ _ => script_call, fun f scopes hf => ?_, fun k f way =>
    (allBegun_moves p entryPoints).of_getElem?⟩
  rw [hentry]
  exact ⟨fun _ _ => lookup_bindParams hf, fun e => binds_as_passed_iff hf⟩

section Programs

/-- A function of a type that registers a scope under its second parameter. -/
def mounter (first : Param) : FnDecl :=
  let f := methodIn "Mounter" "mount" [registerOf "root" (routerOf (groupOf "/b"))]
  { f with item := { f.item with params := [first, .typed (some "root")] } }

/-- A call of it by its path. -/
def mountCall : Expr :=
  .call (pathOf ["Mounter", "mount"]) [.ref (pathOf ["m"]), .ref (pathOf ["root"])]

/-- An entry point makes a scope, has another one registered under it, and serves it. -/
def mounting (first : Param) : Program where
  structs := [structOf "Mounter" .unit]
  fns :=
    [fnIn [] "main"
      [.binding (.name "m") [] (some (pathOf ["Mounter"])) none,
       .binding (.name "root") [] (some (routerOf (groupOf "/a"))) none,
       .expr [] mountCall true,
       serveOf (pathOf ["root"])],
     mounter first]

/-- What names mean in the entry point. -/
def mountingNames (first : Param) : Names := .within ⟨mounting first, [], none⟩ none

theorem regular_mounter {first : Param} (h : first ≠ .typed (some "root")) :
    (mounter first).Regular := by
  refine ⟨by simp [mounter], ?_⟩
  cases first with
  | receiver => decide
  | typed name =>
    cases name with
    | none => decide
    | some name =>
      have hne : name ≠ "root" := fun he => h (he ▸ rfl)
      simpa [mounter, FnDecl.boundNames, FnDecl.paramNames] using hne

/-- With two parameters, none of which is a receiver, the second one stands for the scope that is
the second argument. -/
theorem arguments_bound_mounting :
    let p := mounting (.typed (some "mounter"))
    let f := mounter (.typed (some "mounter"))
    let names := mountingNames (.typed (some "mounter"))
    Body.callee? names mountCall = some f ∧
    script (jumpWithin p 2) Way.entry.rights (Body.expr names mountCall [("root", 0)]) = (do
      let (scopes, locals) ←
        script (jumpWithin p 2) Way.entry.rights (Body.handed names mountCall [("root", 0)])
      let scope ← jumpWithin p 2 (.function f (wayOf Way.entry.rights f scopes))
      return (scope, locals)) ∧
    f.Regular ∧ Body.Suits f mountCall ∧ Body.handsReceiver f mountCall = false ∧
    (wayOf Way.entry.rights f [none, some 0]).params.lookup "root" = some 0 ∧
    Passes f mountCall [none, some 0] "root" 0 ∧
    (moves p ["main"])[2]? = some (.begin f (.bound [("root", 0)])) ∧
    InTurn (· ∈ entries p ["main"]) (opened [] ((moves p ["main"]).take 2)) := by
  intro p f names
  obtain ⟨hcall, hbind, hbegun⟩ := arguments_bound p ["main"]
  have hcallee : Body.callee? names mountCall = some f := by rfl
  have hregular : f.Regular := regular_mounter (by decide)
  have hreceiver : Body.handsReceiver f mountCall = false := by decide
  have hbegin : (moves p ["main"])[2]? = some (.begin f (.bound [("root", 0)])) := by rfl
  obtain ⟨hlookup, hpassed⟩ := hbind f [none, some 0] hregular
  have hroot : (wayOf Way.entry.rights f [none, some 0]).params.lookup "root" = some 0 :=
    (hlookup "root" 0).mpr ⟨1, rfl, by decide⟩
  have hpasses : Passes f mountCall [none, some 0] "root" 0 :=
    ((hpassed mountCall trivial).mpr (fun h => by cases hreceiver.symm.trans h) "root" 0).mp hroot
  exact ⟨hcallee, hcall _ _ _ _ hcallee _, hregular, trivial, hreceiver, hroot, hpasses, hbegin,
    ((hbegun 2 f _ hbegin).bound _ rfl).1⟩

/-- With a receiver in place of the first parameter the same call binds nothing, and what is
registered under the parameter is lost. -/
theorem receiver_shifts_arguments :
    let f := mounter .receiver
    Body.callee? (mountingNames .receiver) mountCall = some f ∧ f.Regular ∧
    Passes f mountCall [none, some 0] "root" 0 ∧
    (wayOf Way.entry.rights f [none, some 0]).params.lookup "root" = none ∧
    "Group(/a) > Group(/b)" ∉ RouteTree.labels (mounting .receiver) ["main"] ∧
    "Group(/a) > Group(/b)" ∈
      RouteTree.labels (mounting (.typed (some "mounter"))) ["main"] := by
  refine ⟨by rfl, regular_mounter (by decide), ⟨1, rfl, by rfl⟩, by rfl, ?_⟩
  simp only [RouteTree.mem_labels_iff]
  decide +kernel

end Programs

end Replay

end ServiceContract
