import ServiceContract.Proofs.Schema.Components
import ServiceContract.Proofs.Schema.Replay

/-! # What a failure leaves behind

The component of a type is entered before the type is expanded, and a failure of the expansion does
not take it back. So a failure is final if nothing was left unfinished. What was left unfinished
passes for a component from then on: a use of its type ends well, with a reference to a component
that does not exist.
-/

namespace ServiceContract

open Source TypeCompiler Schema

variable {p : Program}

/-- The key is the one of a declared struct or enum that a type without wrappers uses. -/
def UseKey (p : Program) (key : String) : Prop :=
  ∃ type module d args, Uses p (fun _ => True) type module d args ∧
    Layers.ofType type = { type := type } ∧ d.key args = key

namespace SchemaTable

/-- The components that a table has more than another one, and that have no schema, are of types
that are used. -/
def LeavesUses (p : Program) (t t' : SchemaTable) : Prop :=
  ∀ key d, t'.definition? key = some d → t.definition? key = none → d.schema = none → UseKey p key

theorem LeavesUses.trans {t t' t'' : SchemaTable} (h : LeavesUses p t t') (hg : Grows t' t'')
    (h' : LeavesUses p t' t'') : LeavesUses p t t'' := by
  intro key d hd hk hs
  cases hk' : t'.definition? key with
  | none => exact h' key d hd hk' hs
  | some d' =>
    obtain rfl : d' = d := Option.some.inj ((hg.kept hk').symm.trans hd)
    exact h key d' hk' hk hs

end SchemaTable

open SchemaTable

/-- Whatever becomes of work, what it leaves unfinished is of types that are used. -/
def LeavesUses (p : Program) {α : Type} (x : Compile α) : Prop :=
  ∀ t, SchemaTable.LeavesUses p t (x.runOn t).2

namespace LeavesUses

variable {α β : Type} {x : Compile α} {f : α → Compile β} {t t' : SchemaTable}

theorem of_runOn {r : Except Error α} (h : LeavesUses p x) (hr : x.runOn t = (r, t')) :
    SchemaTable.LeavesUses p t t' := by
  have hl := h t
  rwa [hr] at hl

theorem of_unchanged (h : ∀ t, (x.runOn t).2 = t) : LeavesUses p x := by
  intro t key d hd hk
  rw [h, hk] at hd
  cases hd

theorem bind (hx : LeavesUses p x) (hr : ∀ a, Replays (f a)) (hf : ∀ a, LeavesUses p (f a)) :
    LeavesUses p (x >>= f) := by
  intro t
  rw [Work.runOn_bind]
  rcases hx₁ : x.runOn t with ⟨e | a, t₁⟩
  · exact hx.of_runOn hx₁
  · exact (hx.of_runOn hx₁).trans ((hr a).grows t₁) (hf a t₁)

theorem componentOf {d : TypeDecl} {args : List TypeExpr} {expand : Compile Schema}
    (he : LeavesUses p expand) (hr : Replays expand) (hu : UseKey p (d.key args)) :
    LeavesUses p (TypeCompiler.componentOf p d args expand) := by
  intro t key c hc hk hs
  by_cases hkey : key = d.key args
  · exact hkey ▸ hu
  have entered {name : String} : (t.enter (d.key args) name none).definition? key = none := by
    rw [definition?_enter, if_neg hkey, hk]
  rcases hrun : (TypeCompiler.componentOf p d args expand).runOn t with ⟨e | s, t'⟩ <;>
    rw [hrun] at hc
  · obtain ⟨-, name, t₁, -, hr₁, -, rfl⟩ := componentOf_eq_error hr.grows hrun
    exact he.of_runOn hr₁ key c hc entered hs
  · rcases componentOf_eq_ok hr.grows hrun with
      ⟨d', -, -, rfl⟩ | ⟨-, name, s₁, t₁, -, hr₁, hd₁, -, rfl⟩
    · rw [hk] at hc
      cases hc
    · rw [definition?_resolve hd₁, if_neg hkey] at hc
      exact he.of_runOn hr₁ key c hc entered hs

end LeavesUses

theorem workRules_leavesUses (p : Program) :
    WorkRules p (fun _ => True) fun _ x => Replays x ∧ LeavesUses p x where
  types := typeRules_true p
  pure a := ⟨.pure a, .of_unchanged fun _ => rfl⟩
  throw e := ⟨.throw e, .of_unchanged fun _ => rfl⟩
  fail e written _ := ⟨.fail e written, .of_unchanged fun _ => rfl⟩
  bind hx hf := ⟨hx.1.bind fun a => (hf a).1, hx.2.bind (fun a => (hf a).1) fun a => (hf a).2⟩
  component use hl he :=
    ⟨.componentOf _ _ he.1, .componentOf he.2 he.1 ⟨_, _, _, _, use, hl, rfl⟩⟩

theorem LeavesUses.compileType (type : TypeExpr) (module : List String) :
    LeavesUses p (p.compileType type module) :=
  ((workRules_leavesUses p).compileType module trivial).2

/-- A use of a type whose component is in the table is the reference to it, finished or not. -/
theorem UseKey.compileType {key : String} (h : UseKey p key) :
    ∃ type module, ∀ T d, T.definition? key = some d →
      (p.compileType type module).runOn T = (.ok (.ref d.name), T) := by
  obtain ⟨type, module, decl, args, use, hl, rfl⟩ := h
  refine ⟨type, module, fun T d hd => ?_⟩
  have hpos : 0 < p.levels type := Nat.pow_pos (Nat.succ_pos _)
  obtain ⟨n, hn⟩ := Nat.exists_eq_succ_of_ne_zero (Nat.ne_of_gt hpos)
  have hshape : (TypeCompiler.shapeOf p (TypeCompiler.within p n) type module).runOn T =
      (.ok (.ref d.name), T) := by
    rw [use.shapeOf_eq, runOn_componentOf, hd]
  have hwithin : (p.compileField type module).runOn T =
      (.ok ⟨.ref d.name, false, 0⟩, T) := by
    rw [Program.compileField, hn, TypeCompiler.within, step, hl]
    exact Work.runOn_bind_eq_ok.mpr ⟨_, T, hshape, rfl⟩
  exact Work.runOn_bind_eq_ok.mpr ⟨_, T, hwithin, rfl⟩

section Error

variable {calls : List SchemaCall} {type : TypeExpr} {module : List String} {e : Error}
  {t' : SchemaTable}

/-- A failed compilation fails again after any calls, if it finished all components that it
entered. Later schemas refer to components that are shown, or to ones that were left unfinished
before. Each component that a failure left unfinished has a type which compiles from then on, to a
reference to a component that is not shown. -/
theorem compileType_after_error
    (h : (p.compileType type module).runOn (after p {} calls) = (.error e, t')) :
    ((after p {} calls).Finishes t' → ∀ later,
        (p.compileType type module).runOn (after p t' later) = (.error e, after p t' later)) ∧
      (∀ later other m s T, (p.compileType other m).runOn (after p t' later) = (.ok s, T) →
        ∀ n, Node n s → ∀ r, n.reference = some r → ∃ name, r = componentRoot ++ name ∧
          ((∃ s', (name, s') ∈ T.components) ∨
            ∃ key, (after p t' later).definition? key = some ⟨name, none⟩)) ∧
      ∀ key name, t'.definition? key = some ⟨name, none⟩ →
        (after p {} calls).definition? key = none → ∃ other m, ∀ later,
          (p.compileType other m).runOn (after p t' later) =
            (.ok (.ref name), after p t' later) ∧
          ∀ s, (name, s) ∉ (after p t' later).components := by
  have replays : Replays (p.compileType type module) := .compileType p type module
  have grows : Grows (after p {} calls) t' := replays.grows_of_runOn h
  have inverse (later) : (after p t' later).Inverse :=
    (grows_after later).inverse (grows.inverse (inverse_of_after calls))
  refine ⟨fun hf later => ?_, fun later other m s T hr n hn r href => ?_,
    fun key name hd hk => ?_⟩
  · have hg : Grows t' (after p t' later) := grows_after later
    exact replays.error h hf hg.coveredBy (hg.stack.trans grows.stack)
  · obtain ⟨hadv, hs⟩ := ((nameRules_refersTo p).compileRules.compileType other).ok hr
    have hg : Grows (after p t' later) T := (Replays.compileType p other m).grows_of_runOn hr
    have hT : T.Inverse := hg.inverse (inverse later)
    obtain ⟨name, rfl, key, d, hd, rfl⟩ := hs n hn r href
    refine ⟨d.name, rfl, ?_⟩
    cases hschema : d.schema with
    | some s' => exact .inl ⟨s', (mem_components_iff hT).mpr ⟨key, by rw [hd, ← hschema]⟩⟩
    | none =>
      obtain ⟨d', hd', hn'⟩ := hadv.unresolved hd hschema
      obtain ⟨d'', hd'', hnn⟩ := hadv.named hd'
      obtain rfl : d'' = d := Option.some.inj (hd''.symm.trans hd)
      exact .inr ⟨key, by rw [hd', hnn, ← hn']⟩
  · obtain ⟨other, m, hcompile⟩ :=
      ((LeavesUses.compileType type module).of_runOn h key _ hd hk rfl).compileType
    refine ⟨other, m, fun later => ?_⟩
    have hd' : (after p t' later).definition? key = _ := (grows_after later).kept hd
    refine ⟨hcompile _ _ hd', fun s hs => ?_⟩
    obtain ⟨key', hd''⟩ := (mem_components_iff (inverse later)).mp hs
    obtain rfl : key = key' := (inverse later).key_unique hd' hd'' rfl
    cases hd'.symm.trans hd''

end Error

/-- A map with numbers as keys, which cannot be described. -/
def numberMap : TypeExpr := .path ["HashMap"] [.path ["u32"] [], .path ["String"] []]

/-- A struct whose only field is such a map. -/
def numberKeys : Program where
  structs := [⟨[], [], "Bad", [], .named [⟨[], true, some "by_id", numberMap⟩]⟩]

/-- The table with the component that the failure of the struct leaves unfinished. -/
def unfinishedBad : SchemaTable where
  definitions := [("Bad", ⟨"Bad", none⟩)]
  names := [("Bad", "Bad")]

/-- The map fails as often as it is compiled; the struct fails once, and its component stays
away. -/
theorem compileType_after_error_bad :
    (∀ later, (numberKeys.compileType numberMap []).runOn (after numberKeys {} later) =
        (.error (.unsupportedMapKey "u32" "HashMap<u32, String>"), after numberKeys {} later)) ∧
      ∃ other m, ∀ later,
        (numberKeys.compileType other m).runOn (after numberKeys unfinishedBad later) =
          (.ok (.ref "Bad"), after numberKeys unfinishedBad later) ∧
        ∀ s, ("Bad", s) ∉ (after numberKeys unfinishedBad later).components := by
  have hmap : (numberKeys.compileType numberMap []).runOn (after numberKeys {} []) =
      (.error (.unsupportedMapKey "u32" "HashMap<u32, String>"), {}) := by rfl
  have hbad : (numberKeys.compileType (.path ["Bad"] []) []).runOn (after numberKeys {} []) =
      (.error (.unsupportedMapKey "u32" "Bad"), unfinishedBad) := by rfl
  have finishes : (after numberKeys {} []).Finishes {} := fun key d hd => by cases hd
  exact ⟨(compileType_after_error hmap).1 finishes,
    (compileType_after_error hbad).2.2 "Bad" "Bad" rfl rfl⟩

/-- Compiled for the second time, the struct has become a reference to a component that is not
there. -/
theorem compileType_bad_twice :
    let bad := numberKeys.compileType (.path ["Bad"] []) []
    let t := (bad.runOn {}).2
    (bad.runOn {}).1 = .error (.unsupportedMapKey "u32" "Bad") ∧
      (bad.runOn t).1 = .ok (.ref "Bad") ∧ (bad.runOn t).2.components = [] := by
  exact ⟨rfl, rfl, rfl⟩

end ServiceContract
