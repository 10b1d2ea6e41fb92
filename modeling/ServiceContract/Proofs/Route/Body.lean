import ServiceContract.Route.Replay
import ServiceContract.Proofs.Program.Lookup

/-! # What scripts use

A script of a body registers, attaches to and serves only scopes that it was given or has made, it
calls only functions of the program, and it registers at most as many scopes as registrations are
written in the body.
-/

namespace ServiceContract

open Source

/-- Whether all scopes are numbered below a bound. -/
def Known (n : Nat) (scope : Option ScopeId) : Prop := ∀ id ∈ scope, id < n

/-- Whether names stand for such scopes only. -/
def Locals.Known (n : Nat) (locals : Locals) : Prop := ∀ e ∈ locals, e.2 < n

theorem Known.mono {n m : Nat} {scope : Option ScopeId} (h : Known n scope) (hm : n ≤ m) :
    Known m scope := fun id hid => Nat.lt_of_lt_of_le (h id hid) hm

theorem known_none {n : Nat} : Known n none := fun _ h => nomatch h

theorem known_some {n : Nat} {id : ScopeId} : Known n (some id) ↔ id < n := by simp [Known]

theorem Locals.Known.mono {n m : Nat} {locals : Locals} (h : locals.Known n) (hm : n ≤ m) :
    locals.Known m := fun e he => Nat.lt_of_lt_of_le (h e he) hm

theorem Locals.Known.lookup {n : Nat} {locals : Locals} {name : String} {id : ScopeId}
    (h : locals.Known n) (hl : locals.lookup name = some id) : id < n := h _ (mem_of_lookup hl)

theorem Locals.Known.setKey {n : Nat} {locals : Locals} {name : String} {id : ScopeId}
    (h : locals.Known n) (hid : id < n) : Locals.Known n (setKey name id locals) := fun e he => by
  rcases mem_setKey he with rfl | he
  · exact hid
  · exact h e he

namespace Script

variable {α β : Type} {callable : FnDecl → Prop} {P Q : Nat → α → Prop} {R : Nat → β → Prop}
  {n m k l : Nat}

theorem bind_done (x : Script α) : x.bind done = x := by
  induction x with
  | done => rfl
  | make _ _ ih | static _ _ ih | call _ _ _ ih => exact congrArg _ (funext ih)
  | link _ _ _ ih | attach _ _ _ ih | serve _ _ ih => exact congrArg _ ih

theorem bind_assoc {γ : Type} (x : Script α) (f : α → Script β) (g : β → Script γ) :
    (x.bind f).bind g = x.bind fun a => (f a).bind g := by
  induction x with
  | done => rfl
  | make _ _ ih | static _ _ ih | call _ _ _ ih => exact congrArg _ (funext ih)
  | link _ _ _ ih | attach _ _ _ ih | serve _ _ ih => exact congrArg _ ih

instance : LawfulMonad Script := .mk' _ bind_done (fun _ _ => rfl) bind_assoc

/-- Where so many scopes exist, a script uses only scopes that exist, calls only what is callable
and registers at most so many scopes, whatever it is answered. -/
def Fits (callable : FnDecl → Prop) (P : Nat → α → Prop) : Nat → Nat → Script α → Prop
  | n, _, done a => P n a
  | n, k, make _ next => ∀ m ≥ n, Fits callable P (m + 1) k (next m)
  | n, k, link parent child next =>
    parent < n ∧ child < n ∧ ∃ l, k = l + 1 ∧ Fits callable P n l next
  | n, k, attach id _ next => id < n ∧ Fits callable P n k next
  | n, k, serve id next => id < n ∧ Fits callable P n k next
  | n, k, static _ next => ∀ m ≥ n, ∀ scope, Known m scope → Fits callable P m k (next scope)
  | n, k, call f args next => callable f ∧ (∀ scope ∈ args, Known n scope) ∧
    ∀ m ≥ n, ∀ scope, Known m scope → Fits callable P m k (next scope)

theorem Fits.imp {x : Script α} (h : x.Fits callable P n k) (hk : k ≤ l)
    (hpq : ∀ m ≥ n, ∀ a, P m a → Q m a) : x.Fits callable Q n l := by
  induction x generalizing n k l with
  | done a => exact hpq n (Nat.le_refl n) a h
  | make _ next ih =>
    exact fun m hm => ih m (h m hm) hk fun m' hm' => hpq m' (by omega)
  | link parent child next ih =>
    obtain ⟨hp, hc, k', rfl, h⟩ := h
    exact ⟨hp, hc, l - 1, by omega, ih h (by omega) hpq⟩
  | attach id _ next ih => exact ⟨h.1, ih h.2 hk hpq⟩
  | serve id next ih => exact ⟨h.1, ih h.2 hk hpq⟩
  | static _ next ih =>
    exact fun m hm scope hs => ih scope (h m hm scope hs) hk fun m' hm' => hpq m' (by omega)
  | call f args next ih =>
    exact ⟨h.1, h.2.1, fun m hm scope hs =>
      ih scope (h.2.2 m hm scope hs) hk fun m' hm' => hpq m' (by omega)⟩

/-- Registrations of a script and of what comes after it add up. -/
theorem Fits.bind {x : Script α} {f : α → Script β} (hx : x.Fits callable P n k)
    (hf : ∀ m ≥ n, ∀ a, P m a → (f a).Fits callable R m l) :
    (x.bind f).Fits callable R n (k + l) := by
  induction x generalizing n k with
  | done a => exact (hf n (Nat.le_refl n) a hx).imp (by omega) fun _ _ _ h => h
  | make _ next ih =>
    exact fun m hm => ih m (hx m hm) fun m' hm' => hf m' (by omega)
  | link parent child next ih =>
    obtain ⟨hp, hc, k', rfl, hx⟩ := hx
    exact ⟨hp, hc, k' + l, by omega, ih hx hf⟩
  | attach id _ next ih => exact ⟨hx.1, ih hx.2 hf⟩
  | serve id next ih => exact ⟨hx.1, ih hx.2 hf⟩
  | static _ next ih =>
    exact fun m hm scope hs => ih scope (hx m hm scope hs) fun m' hm' => hf m' (by omega)
  | call f args next ih =>
    exact ⟨hx.1, hx.2.1, fun m hm scope hs =>
      ih scope (hx.2.2 m hm scope hs) fun m' hm' => hf m' (by omega)⟩

theorem Fits.map {x : Script α} {g : α → β} (hx : x.Fits callable P n k)
    (hg : ∀ m a, P m a → R m (g a)) : (g <$> x).Fits callable R n k :=
  hx.bind (l := 0) fun m _ a ha => hg m a ha

end Script

namespace Body

/-- The registrations that an expression itself is, not those inside it. -/
def registrations : Expr → Nat
  | .methodCall _ name _ _ args => if name == "register" then args.length else 0
  | _ => 0

/-- The scopes that are registered in writing, by all expressions of a walk. -/
def written : List Expr → Nat
  | [] => 0
  | e :: es => registrations e + written es

@[simp] theorem written_nil : written [] = 0 := rfl

@[simp] theorem written_cons (e : Expr) (es : List Expr) :
    written (e :: es) = registrations e + written es := rfl

@[simp] theorem written_append (es es' : List Expr) :
    written (es ++ es') = written es + written es' := by
  induction es with
  | nil => simp
  | cons e es ih => simp [ih, Nat.add_assoc]

/-- All expressions that a script can come from. -/
def walk : Walk := ⟨true, true⟩

variable {α β : Type} {callable : FnDecl → Prop} {P Q : Nat → α → Prop} {R : Nat → β → Prop}
  {n m k l : Nat} {x : BodyScript α} {f : α → BodyScript β} {scope : Option ScopeId}

/-- From so many scopes on, a script that is given known locals leaves known ones, and its result
is as described. -/
def Fits (callable : FnDecl → Prop) (P : Nat → α → Prop) (n k : Nat) (x : BodyScript α) : Prop :=
  ∀ m ≥ n, ∀ locals, Locals.Known m locals →
    (x locals).Fits callable (fun m r => P m r.1 ∧ Locals.Known m r.2) m k

namespace Fits

theorem pure {a : α} (h : ∀ m ≥ n, P m a) : Fits callable P n k (pure a : BodyScript α) :=
  fun m hm _ hl => ⟨h m hm, hl⟩

theorem from_le (h : Fits callable P n k x) (hm : n ≤ m) : Fits callable P m k x :=
  fun m' hm' => h m' (by omega)

theorem weaken (h : Fits callable P n k x) (hk : k ≤ l) : Fits callable P n l x :=
  fun m hm locals hl => (h m hm locals hl).imp hk fun _ _ _ h => h

theorem bind (hx : Fits callable P n k x)
    (hf : ∀ m ≥ n, ∀ a, P m a → Fits callable R m l (f a)) :
    Fits callable R n (k + l) (x >>= f) :=
  fun m hm locals hl => (hx m hm locals hl).bind fun m' hm' r hr =>
    hf m' (by omega) r.1 hr.1 m' (Nat.le_refl m') r.2 hr.2

/-- What comes after a script whose result does not matter. -/
theorem andThen {y : BodyScript β} (hx : Fits callable P n k x) (hy : Fits callable R n l y) :
    Fits callable R n (k + l) (x >>= fun _ => y) :=
  hx.bind fun _ hm _ _ => hy.from_le hm

/-- A script whose result is dropped. -/
theorem drop (hx : Fits callable P n k x) :
    Fits callable Known n k (x >>= fun _ => Pure.pure none) :=
  (hx.andThen (.pure (P := Known) fun _ _ => known_none)).weaken (Nat.le_of_eq (Nat.add_zero k))

theorem newScope {operators : List OperatorRef} :
    Fits callable Known n 0 (newScope operators) :=
  fun _ _ _ hl m' hm' =>
    ⟨known_some.mpr (Nat.lt_succ_self m'), hl.mono (Nat.le_succ_of_le hm')⟩

theorem linkAll {parent : ScopeId} {children : List (Option ScopeId)} (hp : parent < n)
    (hc : ∀ scope ∈ children, Known n scope) :
    Fits callable (fun _ _ => True) n children.length (linkAll parent children) := by
  induction children with
  | nil => exact .pure fun _ _ => trivial
  | cons scope rest ih =>
    have ih := ih fun scope hs => hc scope (List.mem_cons_of_mem _ hs)
    cases scope with
    | none => exact ih.weaken (Nat.le_succ _)
    | some child =>
      have hchild := known_some.mp (hc _ List.mem_cons_self)
      exact fun m hm locals hl => ⟨Nat.lt_of_lt_of_le hp hm, Nat.lt_of_lt_of_le hchild hm, _, rfl,
        ih m hm locals hl⟩

theorem attach {id : ScopeId} {operators : List OperatorRef} (h : id < n) :
    Fits callable (fun _ _ => True) n 0 (attach id operators) :=
  fun _ hm _ hl => ⟨Nat.lt_of_lt_of_le h hm, trivial, hl⟩

theorem serve (h : Known n scope) : Fits callable (fun _ _ => True) n 0 (serve scope) := by
  cases scope with
  | none => exact .pure fun _ _ => trivial
  | some id =>
    exact fun _ hm _ hl => ⟨Nat.lt_of_lt_of_le (known_some.mp h) hm, trivial, hl⟩

theorem static {name : String} : Fits callable Known n 0 (static name) :=
  fun _ _ _ hl _ hm _ hs => ⟨hs, hl.mono hm⟩

theorem call {g : FnDecl} {args : List (Option ScopeId)} (hg : callable g)
    (ha : ∀ scope ∈ args, Known n scope) : Fits callable Known n 0 (call g args) :=
  fun _ hm _ hl =>
    ⟨hg, fun scope hs => (ha scope hs).mono hm, fun _ hm' _ hs => ⟨hs, hl.mono hm'⟩⟩

theorem ofPath {p : Path} : Fits callable Known n 0 (ofPath p) := by
  intro m hm locals hl
  unfold Body.ofPath
  split
  · next id _ hid =>
    obtain ⟨name, -, hlookup⟩ := Option.bind_eq_some_iff.mp hid
    exact ⟨known_some.mpr (hl.lookup hlookup), hl⟩
  · exact static m hm locals hl
  · exact ⟨known_none, hl⟩

theorem bindName {name : Option String} (h : Known n scope) :
    Fits callable (fun _ _ => True) n 0 (bindName name scope) := by
  cases name with
  | none => exact .pure fun _ _ => trivial
  | some name =>
    cases scope with
    | none => exact .pure fun _ _ => trivial
    | some id =>
      exact fun _ hm _ hl => ⟨trivial, hl.setKey (Nat.lt_of_lt_of_le (known_some.mp h) hm)⟩

end Fits

/-- Names in a body mean only callable functions. -/
structure Calls (names : Names) (callable : FnDecl → Prop) : Prop where
  function : ∀ {segments f}, names.function? segments = some f → callable f
  method : ∀ {name f}, names.method? name = some f → callable f

section Evaluation

variable {names : Names}

mutual

theorem fits_expr (hc : Calls names callable) (n : Nat) : ∀ e : Expr,
    Fits callable Known n (written (walk.expr e)) (expr names e)
  | .ref e | .paren e | .unary _ e | .attempt e | .await e => by
    rw [expr, Walk.expr, written_cons]
    exact (fits_expr hc n e).weaken (Nat.le_add_left _ _)
  | .closure _ inner e => by
    rw [expr]
    refine (fits_expr hc n e).weaken ?_
    simp only [Walk.expr, walk, if_true, written_cons, written_append]
    omega
  | .block b | .uncheckedBlock b => by
    rw [expr, Walk.expr, written_cons]
    exact (fits_block hc n none known_none b).weaken (Nat.le_add_left _ _)
  | .returns (some e) => by
    rw [expr, Walk.expr, written_cons]
    exact (fits_expr hc n e).weaken (Nat.le_add_left _ _)
  | .ifThen c b none => by
    rw [expr]
    refine ((fits_expr hc n c).andThen (fits_block hc n none known_none b).drop).weaken ?_
    simp only [Walk.expr, written_cons, written_append]
    omega
  | .ifThen c b (some e) => by
    rw [expr]
    refine ((fits_expr hc n c).andThen ((fits_block hc n none known_none b).andThen
      (fits_expr hc n e).drop)).weaken ?_
    simp only [Walk.expr, Walk.optional, written_cons, written_append]
    omega
  | .matchOn e as => by
    rw [expr]
    refine ((fits_expr hc n e).andThen (fits_arms hc n as).drop).weaken ?_
    simp only [Walk.expr, written_cons, written_append]
    omega
  | .forLoop _ _ _ b | .whileLoop _ b | .loop b => by
    rw [expr]
    refine (fits_block hc n none known_none b).drop.weaken ?_
    simp only [Walk.expr, written_cons, written_append]
    omega
  | .assign left e => by
    rw [expr]
    refine ((fits_expr hc n e).bind fun m _ scope hs => (Fits.bindName hs).drop).weaken ?_
    simp only [Walk.expr, written_cons, written_append]
    omega
  | .path p inner => by
    rw [expr]
    exact Fits.ofPath.weaken (Nat.zero_le _)
  | .macroCall m => by
    rw [expr]
    refine (fits_macroCall hc n m).weaken ?_
    simp only [Walk.expr, written_cons]
    omega
  | .call g args => by
    have hargs : written (walk.exprs args) ≤ written (walk.expr (.call g args)) := by
      simp only [Walk.expr, written_cons, written_append]
      omega
    rw [expr]
    split
    · exact (fits_exprs hc n args).drop.weaken hargs
    · split
      · exact Fits.newScope.weaken (Nat.zero_le _)
      · split
        · exact (fits_serveAll hc n args).drop.weaken hargs
        · split
          · next f hf =>
            exact ((fits_exprs hc n args).bind fun m _ scopes hs =>
              Fits.call (hc.function hf) hs.2).weaken hargs
          · refine ((fits_exprs hc n args).bind (l := 0) fun m _ scopes hs => ?_).weaken hargs
            split
            · next scope => exact .pure fun _ hm => (hs.2 scope List.mem_cons_self).mono hm
            · exact .pure fun _ _ => known_none
  | .methodCall e name types inner args => by
    have hwritten : written (walk.expr e) + written (walk.exprs args) +
        (if name == "register" then args.length else 0) ≤
          written (walk.expr (.methodCall e name types inner args)) := by
      simp only [Walk.expr, written_cons, written_append, registrations]
      omega
    rw [expr]
    refine Fits.weaken ?_ hwritten
    split
    · -- every argument is registered at most once
      refine ((fits_expr hc n e).bind fun m _ parent hp => (fits_exprs hc m args).bind
        (l := args.length) fun m' hm' children hchildren => ?_).weaken (Nat.le_of_eq ?_)
      · split
        · next id =>
          have hlink : Fits callable (fun _ _ => True) m' args.length (linkAll id children) :=
            hchildren.1 ▸ Fits.linkAll (Nat.lt_of_lt_of_le (known_some.mp hp) hm') hchildren.2
          exact hlink.andThen (l := 0) (.pure fun _ hm => (hp.mono hm').mono hm)
        · exact .weaken (.pure fun _ _ => known_none) (Nat.zero_le _)
      · omega
    · split
      · refine ((fits_expr hc n e).bind (l := 0) fun m _ target ht => ?_).weaken (by omega)
        split
        · next id =>
          have hattach : Fits callable (fun _ _ => True) m 0 (attach id (names.operators args)) :=
            Fits.attach (known_some.mp ht)
          exact hattach.andThen (l := 0) (.pure fun _ hm => ht.mono hm)
        · exact .pure fun _ _ => known_none
      · split
        · exact (fits_expr hc n e).weaken (by omega)
        · split
          · refine ((fits_expr hc n e).bind fun m _ scope hs =>
              (Fits.serve hs).andThen (fits_serveAll hc m args).drop).weaken (by omega)
          · refine ((fits_expr hc n e).andThen (l := written (walk.exprs args)) ?_).weaken
              (by omega)
            split
            · next f hf =>
              refine (fits_exprs hc n args).bind fun m _ scopes hs => Fits.call ?_ hs.2
              split at hf
              · exact hc.method hf
              · cases hf
            · exact (fits_exprs hc n args).drop
  | .tuple es => by
    rw [expr]
    refine (fits_exprs hc n es).drop.weaken ?_
    simp only [Walk.expr, written_cons]
    omega
  | .lit _ | .rawAddress _ | .binary _ _ _ | .cast _ _ _ | .field _ _ | .index _ _ | .record _ _ _ _
  | .array _ | .repeated _ _ | .range _ _ | .constBlock _ | .asyncBlock _ | .tryBlock _
  | .letCond _ _ _ | .returns none | .breaks _ | .yields _ | .other => by
    simp only [expr]
    exact .weaken (.pure fun _ _ => known_none) (Nat.zero_le _)

theorem fits_exprs (hc : Calls names callable) (n : Nat) : ∀ es : List Expr,
    Fits callable (fun m scopes => scopes.length = es.length ∧ ∀ scope ∈ scopes, Known m scope) n
      (written (walk.exprs es)) (exprs names es)
  | [] => by
    rw [exprs]
    exact .weaken (.pure fun _ _ => by simp) (Nat.zero_le _)
  | e :: es => by
    rw [exprs]
    refine ((fits_expr hc n e).bind fun m _ scope hs => (fits_exprs hc m es).bind (l := 0)
      fun m' hm' scopes hscopes => .pure fun m'' hm'' => ⟨?_, ?_⟩).weaken ?_
    · simp only [Walk.exprs, written_append]
      omega
    · rw [List.length_cons, List.length_cons, hscopes.1]
    · exact List.forall_mem_cons.mpr ⟨(hs.mono hm').mono hm'', fun s h => (hscopes.2 s h).mono hm''⟩

theorem fits_serveAll (hc : Calls names callable) (n : Nat) : ∀ es : List Expr,
    Fits callable (fun _ _ => True) n (written (walk.exprs es)) (serveAll names es)
  | [] => by
    rw [serveAll]
    exact .weaken (.pure fun _ _ => trivial) (Nat.zero_le _)
  | e :: es => by
    rw [serveAll]
    refine ((fits_expr hc n e).bind fun m _ scope hs =>
      (Fits.serve hs).andThen (fits_serveAll hc m es)).weaken ?_
    simp only [Walk.exprs, written_append]
    omega

theorem fits_macroCall (hc : Calls names callable) (n : Nat) : ∀ m : MacroCall,
    Fits callable Known n (written (walk.macroCall m)) (macroCall names m)
  | .mk path _ (some args) _ => by
    rw [macroCall]
    split
    · exact Fits.newScope.weaken (Nat.zero_le _)
    · refine (fits_exprs hc n args).drop.weaken ?_
      simp [Walk.macroCall, walk]
  | .mk _ _ none _ => by
    rw [macroCall]
    exact .weaken (.pure fun _ _ => known_none) (Nat.zero_le _)

theorem fits_arms (hc : Calls names callable) (n : Nat) : ∀ as : List Arm,
    Fits callable (fun _ _ => True) n (written (walk.arms as)) (arms names as)
  | [] => by
    rw [arms]
    exact .weaken (.pure fun _ _ => trivial) (Nat.zero_le _)
  | .mk _ inner guard body :: rest => by
    rw [arms]
    refine ((fits_expr hc n body).andThen (fits_arms hc n rest)).weaken ?_
    simp only [Walk.arms, written_append]
    omega

theorem fits_block (hc : Calls names callable) (n : Nat) (last : Option ScopeId)
    (hl : Known n last) : ∀ b : List Stmt,
    Fits callable Known n (written (walk.stmts b)) (block names last b)
  | [] => by
    rw [block]
    exact .weaken (.pure fun _ hm => hl.mono hm) (Nat.zero_le _)
  | s :: rest => by
    rw [block]
    refine ((fits_stmt hc n s).bind fun m _ last hs => fits_block hc m last hs rest).weaken ?_
    simp only [Walk.stmts, written_append]
    omega

theorem fits_stmt (hc : Calls names callable) (n : Nat) : ∀ s : Stmt,
    Fits callable Known n (written (walk.stmt s)) (stmt names s)
  | .binding pattern inner (some e) otherwise => by
    rw [stmt]
    refine ((fits_expr hc n e).bind fun m _ scope hs => (Fits.bindName hs).drop).weaken ?_
    cases otherwise with
    | none =>
      simp only [Walk.stmt, Walk.optional, written_append, written_nil]
      omega
    | some b =>
      simp only [Walk.stmt, Walk.optional, written_append]
      omega
  | .binding _ _ none _ => by
    rw [stmt]
    exact .weaken (.pure fun _ _ => known_none) (Nat.zero_le _)
  | .expr attributes e terminated => by
    rw [stmt]
    refine ((fits_expr hc n e).bind (l := 0) fun m _ scope hs => .pure fun m' hm' => ?_).weaken ?_
    · split
      · exact known_none
      · exact hs.mono hm'
    · simp only [Walk.stmt, written_append]
      omega
  | .macroCall m => by
    rw [stmt]
    exact (fits_macroCall hc n m).drop.weaken (by simp [Walk.stmt])
  | .item _ => by
    rw [stmt]
    exact .weaken (.pure fun _ _ => known_none) (Nat.zero_le _)

end

end Evaluation

/-- What names mean in a scope are functions of its program. -/
theorem calls_within (s : Scope) (owner : Option String) :
    Calls (.within s owner) (· ∈ s.program.fns) where
  function h := s.program.mem_fns_of_resolveCall h
  method h := by
    obtain ⟨o, -, h⟩ := Option.bind_eq_some_iff.mp h
    exact s.program.mem_fns_of_ownedMethod h

end Body

variable {p : Program} {n : Nat}

theorem FnDecl.fits_script {bound : Locals} (f : FnDecl) (h : bound.Known n) :
    (f.script p bound).Fits (· ∈ p.fns) Known n (Body.written (Body.walk.stmts f.body)) :=
  (Body.fits_block (Body.calls_within (f.scope p) f.owner) n none known_none f.body n
    (Nat.le_refl n) bound h).map fun _ _ hr => hr.1

theorem Declared.fits_script (d : Declared StaticItem) :
    (d.script p).Fits (· ∈ p.fns) Known n (Body.written (Body.walk.expr d.item.value)) :=
  (Body.fits_expr (Body.calls_within ⟨p, d.module, none⟩ none) n d.item.value n (Nat.le_refl n) []
    fun _ h => nomatch h).map fun _ _ hr => hr.1

end ServiceContract
