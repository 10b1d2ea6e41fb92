import ServiceContract.Proofs.Document.Survey
import ServiceContract.Proofs.Program.Functions
import ServiceContract.Proofs.Route.Evaluations

/-! # The order of declarations

Functions of one name are looked up among themselves, entry points take their turns in order, and so
do the functions that only the sweep comes to. The places that functions have among all others
change nothing.
-/

namespace ServiceContract

open Source

section Scripts

variable {p : Program} {fns : List FnDecl}

theorem Names.within_withFns (s : Scope) {owner : Option String}
    (h : SameByName fns s.program.fns) :
    Names.within (s.withFns fns) owner = .within s owner := by
  have hoperators : OperatorRef.ofExprs (s.withFns fns) = OperatorRef.ofExprs s :=
    funext fun es => OperatorRef.ofExprs_withFns s es
  have hcall : ∀ segments, (s.program.withFns fns).resolveCall segments s.module owner =
      s.program.resolveCall segments s.module owner :=
    fun _ => Program.resolveCall_withFns h
  have hmethod : ∀ o name, (s.program.withFns fns).ownedMethod o name =
      s.program.ownedMethod o name := fun _ _ => Program.ownedMethod_withFns h
  simp only [within, hoperators]
  simp only [Scope.withFns, hcall, hmethod]

theorem FnDecl.script_withFns (h : SameByName fns p.fns) (f : FnDecl) (bound : Locals) :
    f.script (p.withFns fns) bound = f.script p bound := by
  have hnames : Names.within ((f.scope p).withFns fns) f.owner = .within (f.scope p) f.owner :=
    Names.within_withFns _ h
  rw [script, script, ← hnames]
  rfl

theorem Declared.script_withFns (h : SameByName fns p.fns) (d : Declared StaticItem) :
    d.script (p.withFns fns) = d.script p := by
  have hnames : Names.within (Scope.withFns ⟨p, d.module, none⟩ fns) none =
      .within ⟨p, d.module, none⟩ none := Names.within_withFns _ h
  rw [script, script, ← hnames]
  rfl

end Scripts

namespace Replay

open ReplayState

variable {p q : Program} {t : Task} {s : ReplayState} {ms : List Move} {a : Option ScopeId}
  {js js' : List Jump} {fns : List FnDecl}

/-- Programs with the same scripts and the same statics run alike. -/
theorem Runs.congr (h : Runs p t s ms a) (hf : ∀ f : FnDecl, f.script q = f.script p)
    (hd : ∀ d : Declared StaticItem, d.script q = d.script p) (hs : q.statics = p.statics) :
    Runs q t s ms a := by
  induction h with
  | done => exact .done
  | move hm _ ih => exact .move hm ih
  | unserved hserves _ ih => exact .unserved hserves ih
  | static _ _ ih ih' => exact .static ih ih'
  | call _ _ ih ih' => exact .call ih ih'
  | known ho hb => exact .known ho hb
  | busy hn hstack => exact .busy hn hstack
  | @body f way s ms a hn hstack _ ih => exact .body hn hstack (hf f ▸ ih)
  | asked hl => exact .asked hl
  | undeclared hl hfind => exact .undeclared hl (hs ▸ hfind)
  | @value name d s ms a hl hfind _ ih => exact .value hl (hs ▸ hfind) (hd d ▸ ih)
  | idle => exact .idle
  | turn _ _ ih ih' => exact .turn ih ih'

theorem runs_turns_append : Runs p (.turns (js ++ js')) s ms none ↔
    ∃ ms₁ ms₂, ms = ms₁ ++ ms₂ ∧ Runs p (.turns js) s ms₁ none ∧
      Runs p (.turns js') (s.after ms₁) ms₂ none := by
  induction js generalizing s ms with
  | nil =>
    constructor
    · exact fun h => ⟨[], ms, rfl, .idle, h⟩
    · rintro ⟨ms₁, ms₂, rfl, h₁, h₂⟩
      cases h₁
      exact h₂
  | cons j js ih =>
    constructor
    · rintro (_ | _ | _)
      next ms ms' a hj hrest =>
        obtain ⟨ms₁, ms₂, rfl, h₁, h₂⟩ := ih.mp hrest
        exact ⟨ms ++ ms₁, ms₂, (List.append_assoc ..).symm, .turn hj h₁, by rwa [after_append]⟩
    · rintro ⟨ms₁, ms₂, rfl, h₁, h₂⟩
      cases h₁ with
      | turn hj hrest =>
        rw [List.append_assoc]
        exact .turn hj (ih.mpr ⟨_, _, rfl, hrest, by rwa [after_append] at h₂⟩)

/-- The sweep passes over functions that have been begun before it. -/
theorem runs_sweep_filter {begun : List String} (hb : ∀ key ∈ begun, key ∈ s.begun) :
    Runs p (.turns (fns.map (.function · .remaining))) s ms none ↔
      Runs p (.turns ((fns.filter fun f => !begun.contains f.key).map (.function · .remaining)))
        s ms none := by
  induction fns generalizing s ms with
  | nil => rfl
  | cons f fns ih =>
    by_cases hf : f.key ∈ begun
    · have hknown : Runs p (.jump (.function f .remaining)) s [] (s.answer f.key) :=
        .known rfl (hb _ hf)
      rw [List.filter_cons_of_neg (by simpa using hf), ← ih hb, List.map_cons]
      constructor
      · intro h
        cases h with
        | turn hj hrest =>
          obtain ⟨rfl, -⟩ := hj.unique hknown
          exact hrest
      · exact fun h => .turn hknown h
    · rw [List.filter_cons_of_pos (by simpa using hf), List.map_cons, List.map_cons]
      constructor
      · intro h
        cases h with
        | turn hj hrest => exact .turn hj ((ih fun k hk => hj.keeps.begun k (hb k hk)).mp hrest)
      · intro h
        cases h with
        | turn hj hrest => exact .turn hj ((ih fun k hk => hj.keeps.begun k (hb k hk)).mpr hrest)

/-- The turns before the sweep. -/
def leading (p : Program) (entryPoints : List String) : List Jump :=
  p.statics.map (fun d => .static d.item.name) ++ (entries p entryPoints).map (.function · .entry)

/-- The moves before the sweep. -/
def leadingMoves (p : Program) (entryPoints : List String) : List Move :=
  (inTurn (jumpWithin p (levels p + 1)) (leading p entryPoints) {}).2

/-- Those of some functions that neither statics nor entry points lead to, so that only the sweep
begins them. -/
def swept (p : Program) (entryPoints : List String) (fns : List FnDecl) : List FnDecl :=
  fns.filter fun f => !(after {} (leadingMoves p entryPoints)).begun.contains f.key

theorem runs_leadingMoves (p : Program) (entryPoints : List String) :
    Runs p (.turns (leading p entryPoints)) {} (leadingMoves p entryPoints) none :=
  runs_inTurn (fun j hj => fits_turns p entryPoints j (List.mem_append_left _ hj)) (.empty p)
    (Nat.lt_succ_of_le (Nat.le_refl _))

/-- Functions may be declared in any order that keeps those of one name, the entry points and the
swept functions each in theirs. -/
theorem moves_withFns {entryPoints : List String} (hsame : SameByName fns p.fns)
    (hentries : entries (p.withFns fns) entryPoints = entries p entryPoints)
    (hswept : swept p entryPoints fns = swept p entryPoints p.fns) :
    moves (p.withFns fns) entryPoints = moves p entryPoints := by
  obtain ⟨ms₁, ms₂, hms, h₁, h₂⟩ := runs_turns_append.mp (runs_moves p entryPoints)
  obtain ⟨rfl, -⟩ := h₁.unique (runs_leadingMoves p entryPoints)
  rw [runs_sweep_filter fun _ h => h] at h₂
  have hsweep : Runs p (.turns ((swept p entryPoints fns).map (.function · .remaining)))
      (after {} (leadingMoves p entryPoints)) ms₂ none := by
    rw [hswept]
    exact h₂
  have hrun : Runs p (.turns (leading p entryPoints ++ fns.map (.function · .remaining))) {}
      (moves p entryPoints) none :=
    runs_turns_append.mpr ⟨_, ms₂, hms, h₁, (runs_sweep_filter fun _ h => h).mpr hsweep⟩
  have hcongr : Runs (p.withFns fns) (.turns (turns (p.withFns fns) entryPoints)) {}
      (moves p entryPoints) none := by
    rw [turns, hentries]
    exact hrun.congr (fun f => funext (f.script_withFns hsame))
      (fun d => d.script_withFns hsame) rfl
  exact ((runs_moves (p.withFns fns) entryPoints).unique hcongr).1

end Replay

namespace RouteTree

theorem ofProgram_withFns {p : Program} {fns : List FnDecl} {entryPoints : List String}
    (hsame : SameByName fns p.fns)
    (hentries : Replay.entries (p.withFns fns) entryPoints = Replay.entries p entryPoints)
    (hswept : Replay.swept p entryPoints fns = Replay.swept p entryPoints p.fns) :
    ofProgram (p.withFns fns) entryPoints = ofProgram p entryPoints := by
  simp only [ofProgram, ReplayState.ofProgram, Replay.moves_withFns hsame hentries hswept]

/-- The labels of all routes of a program; there are none if it is not served. -/
def labels (p : Program) (entryPoints : List String) : List String :=
  match ofProgram p entryPoints with
  | .ok t => t.routes.map Route.label
  | .error _ => []

theorem mem_labels_iff {p : Program} {entryPoints : List String} {label : String} :
    label ∈ labels p entryPoints ↔ (match ofProgram p entryPoints with
      | .ok t => (t.routesUnder (t.forest.size + 1) [] t.root).any fun r => r.label == label
      | .error _ => false) = true := by
  unfold labels
  split <;> simp [routes]

end RouteTree

open ReplayState in
/-- A call without bound parameters and the sweep begin only what nothing has begun before. So a
function is evaluated without them once at most, not counting turns as an entry point that come
after it has been begun; and unless it is given scopes, no more scopes are registered by its body
than are written in it, for each evaluation. Where functions are declared among others changes
nothing, if those of one name, the entry points and those that only the sweep begins stay in order
among themselves. -/
theorem Replay.evaluated_once (p : Program) (entryPoints : List String) :
    (∀ k f way, (moves p entryPoints)[k]? = some (.begin f way) → way.once = true →
      f.key ∉ (during p entryPoints k).begun) ∧
    (∀ key, (moves p entryPoints).countP (Move.evaluates key) ≤
      1 + countAlong (Move.repeats key) {} (moves p entryPoints)) ∧
    (∀ key n, (∀ f ∈ p.fns, f.key = key → Body.written (Body.walk.stmts f.body) ≤ n) →
      (moves p entryPoints).countP (Move.binds key) = 0 →
      registered key [] (moves p entryPoints) ≤
        n * (1 + countAlong (Move.repeats key) {} (moves p entryPoints))) ∧
    ∀ fns, SameByName fns p.fns →
      entries (p.withFns fns) entryPoints = entries p entryPoints →
      swept p entryPoints fns = swept p entryPoints p.fns →
      RouteTree.ofProgram (p.withFns fns) entryPoints = RouteTree.ofProgram p entryPoints := by
  have hlegal := legal_moves p entryPoints
  have hcount : ∀ key, (moves p entryPoints).countP (Move.evaluates key) ≤
      1 + countAlong (Move.repeats key) {} (moves p entryPoints) := fun key =>
    countP_evaluates_le hlegal
  refine ⟨fun k f way hk => (hlegal.of_getElem? hk).2.2, hcount, fun key n hn hbinds => ?_,
    fun fns => RouteTree.ofProgram_withFns⟩
  have hle := (runs_moves p entryPoints).registered_le (k := 0) (.empty p)
    (fits_turns p entryPoints) hn []
  rw [countP_begins, hbinds, Nat.add_zero] at hle
  exact Nat.le_trans hle ((Nat.zero_add _).symm ▸ Nat.mul_le_mul_left n (hcount key))

section Programs

/-- A free function without parameters. -/
def fnIn (module : List String) (name : String) (body : Block) : FnDecl where
  key := qualify module name
  module := module
  selfType := none
  owner := none
  item := { attrs := [], name, params := [], output := none, body }

/-- A method with only a receiver. -/
def methodIn (owner name : String) (body : Block) : FnDecl where
  key := qualify [owner] name
  module := []
  selfType := some owner
  owner := some owner
  item := { attrs := [], name, params := [.receiver], output := none, body }

def serveOf (e : Expr) : Stmt := .expr [] (.call (pathOf ["serve"]) [e]) true

def registerOf (parent : String) (e : Expr) : Stmt :=
  .expr [] (.methodCall (pathOf [parent]) "register" [] [] [e]) true

def callOf (name : String) : Expr := .call (pathOf [name]) []

/-- A static that is a router of a group. -/
def groupStatic (name path : String) : Declared StaticItem :=
  ⟨[], { name, value := routerOf (groupOf path) }⟩

/-- Two entry points that serve different scopes. -/
def servingBoth (first second : String × String) : Program where
  fns := [first, second].map fun (name, path) => fnIn [] name [serveOf (routerOf (groupOf path))]

/-- A scope is registered under either of two scopes by functions that nothing calls. -/
def registeringTwice (first second : String × String) : Program where
  statics := [groupStatic "R" "/a", groupStatic "S" "/b", groupStatic "T" "/c"]
  fns := fnIn [] "main" [registerOf "R" (pathOf ["S"]), serveOf (pathOf ["R"])] ::
    [first, second].map fun (name, parent) => fnIn [] name [registerOf parent (pathOf ["T"])]

/-- Functions of one name in different modules, one of which is called. -/
def callingOneOf (first second : String × String) : Program where
  fns := fnIn [] "main" [serveOf (callOf "api")] ::
    [first, second].map fun (module, path) =>
      fnIn [module] "api" [.expr [] (routerOf (groupOf path)) false]

/-- An entry point that calls another one, which registers a scope. -/
def callingInit : Program where
  statics := [groupStatic "R" "/a"]
  fns :=
    [fnIn [] "main" [.expr [] (callOf "init") true, serveOf (pathOf ["R"])],
     fnIn [] "init" [registerOf "R" (routerOf (groupOf "/b"))]]

/-- The order of entry points decides which scope is served, the order of the sweep where a scope is
registered, and the order of namesakes which one is called. An entry point that another one calls is
evaluated twice. -/
theorem labels_depend_on_order :
    ("Group(/a)" ∈ RouteTree.labels (servingBoth ("main", "/a") ("init", "/b")) ["main", "init"] ∧
      "Group(/a)" ∉
        RouteTree.labels (servingBoth ("init", "/b") ("main", "/a")) ["main", "init"]) ∧
    ("Group(/a) > Group(/c)" ∈
        RouteTree.labels (registeringTwice ("one", "R") ("two", "S")) ["main"] ∧
      "Group(/a) > Group(/c)" ∉
        RouteTree.labels (registeringTwice ("two", "S") ("one", "R")) ["main"]) ∧
    ("Group(/a)" ∈ RouteTree.labels (callingOneOf ("x", "/a") ("y", "/b")) ["main"] ∧
      "Group(/a)" ∉ RouteTree.labels (callingOneOf ("y", "/b") ("x", "/a")) ["main"]) ∧
    (Replay.moves callingInit ["main", "init"]).countP (Move.evaluates "init") = 2 ∧
    ReplayState.registered "init" [] (Replay.moves callingInit ["main", "init"]) = 2 := by
  simp only [RouteTree.mem_labels_iff]
  decide +kernel

theorem SameByName.swap {f g : FnDecl} (h : f.name ≠ g.name) : SameByName [f, g] [g, f] := by
  intro name
  by_cases hf : f.name = name
  · have hg : g.name ≠ name := fun hg => h (hf.trans hg.symm)
    simp [hf, hg]
  · simp [List.filter_cons, hf]

/-- Where only `main` is an entry point, `init` is evaluated once, and it makes no difference which
of both is declared first. -/
theorem Replay.evaluated_once_callingInit :
    let p := callingInit
    let main := fnIn [] "main" [.expr [] (callOf "init") true, serveOf (pathOf ["R"])]
    let init := fnIn [] "init" [registerOf "R" (routerOf (groupOf "/b"))]
    (moves p ["main"])[4]? = some (.begin init .called) ∧
    init.key ∉ (ReplayState.during p ["main"] 4).begun ∧
    (moves p ["main"]).countP (Move.evaluates "init") ≤ 1 ∧
    (∀ f ∈ p.fns, f.key = "init" → Body.written (Body.walk.stmts f.body) ≤ 1) ∧
    (moves p ["main"]).countP (Move.binds "init") = 0 ∧
    ReplayState.registered "init" [] (moves p ["main"]) ≤ 1 ∧
    SameByName [init, main] p.fns ∧
    entries (p.withFns [init, main]) ["main"] = entries p ["main"] ∧
    swept p ["main"] [init, main] = swept p ["main"] p.fns ∧
    RouteTree.ofProgram (p.withFns [init, main]) ["main"] = RouteTree.ofProgram p ["main"] := by
  intro p main init
  obtain ⟨hfirst, hcount, hregistered, horder⟩ := evaluated_once p ["main"]
  have hbegin : (moves p ["main"])[4]? = some (.begin init .called) := by rfl
  have hrepeats : ReplayState.countAlong (Move.repeats "init") {} (moves p ["main"]) = 0 := by
    decide +kernel
  have hwritten : ∀ f ∈ p.fns, f.key = "init" → Body.written (Body.walk.stmts f.body) ≤ 1 := by
    decide +kernel
  have hbinds : (moves p ["main"]).countP (Move.binds "init") = 0 := by decide +kernel
  have hsame : SameByName [init, main] p.fns := .swap (by decide)
  have hentries : entries (p.withFns [init, main]) ["main"] = entries p ["main"] := by rfl
  have hswept : swept p ["main"] [init, main] = swept p ["main"] p.fns := by rfl
  refine ⟨hbegin, hfirst 4 init .called hbegin rfl, ?_, hwritten, hbinds, ?_, hsame, hentries,
    hswept, horder _ hsame hentries hswept⟩
  · simpa [hrepeats] using hcount "init"
  · simpa [hrepeats] using hregistered "init" 1 hwritten hbinds

end Programs

end ServiceContract
