import ServiceContract.Proofs.Schema.Failures
import ServiceContract.Proofs.Schema.Termination

/-! # Where errors are found

A type that is refused is reported with the type that is being expanded, which is on top of a stack.
The stack follows the way down to the refused type: what is asked for in place leaves it as it is,
and the component of a declared struct or enum is on it for as long as its declaration is expanded.
Whatever the outcome, the stack is in the end as it was.
-/

namespace ServiceContract

open Source TypeCompiler SchemaTable Program Relation

/-- The type that an error says it is found in. -/
def Error.context? : Error → Option String
  | unsupportedMapKey _ context | unknownPrimitive _ context => some context
  | _ => none

/-- Work that only asks for types fails on its own, or because one of the types fails where the same
types are being expanded. -/
theorem Asks.error {F : Faults} {W : TypeExpr → List String → Prop} {inner : TypeCompiler}
    (hi : ∀ t module, Replays (inner t module)) {α : Type} {S : α → α → Prop} {h : Prop}
    {x y : Compile α} {T : SchemaTable} {e : Error} (hx : Asks F W Eq inner inner h S x y)
    (hr : (x.runOn T).1 = .error e) :
    (∃ f written, F f written ∧ e = f (T.stack.head?.getD written.text)) ∨
      ∃ t module T₁, W t module ∧ T₁.stack = T.stack ∧
        ((inner t module).runOn T₁).1 = .error e := by
  induction hx generalizing T with
  | pure => cases hr
  | fail f written hF _ => exact .inl ⟨f, written, hF, (Except.error.inj hr).symm⟩
  | type ht => exact .inr ⟨_, _, T, ht, rfl, hr⟩
  | bind hx _ ihx ihf =>
    have hreplays := workClosed_replays.of_asks (fun t module _ => hi t module) hx
    rw [Work.runOn_bind] at hr
    rcases hr₁ : Work.runOn _ T with ⟨e' | a, T₁⟩ <;> rw [hr₁] at hr
    · cases hr
      exact ihx (by rw [hr₁])
    · have hs : T₁.stack = T.stack := (hreplays.grows_of_runOn hr₁).stack
      rw [← hs]
      exact ihf a a hr

/-- An error is of a type that is refused, which is the first type or one that it leads to. The
owner is the struct or enum that is being expanded where the first type is met. -/
inductive Blames (p : Program) : Option String → Occurrence → Error → Prop
  | here {owner : Option String} {x : Occurrence} {f : String → Error} :
    Refused p x.module x.bare.type f → Blames p owner x (f (owner.getD x.bare.type.text))
  | inPlace {owner : Option String} {x y : Occurrence} {e : Error} :
    p.Needs x y → Blames p owner y e → Blames p owner x e
  | inside {owner : Option String} {x w : Occurrence} {d : TypeDecl} {args : List TypeExpr}
    {e : Error} : p.component? x.bare = some (d, args) → w ∈ writtenIn d args →
    Blames p (some (d.key args)) w e → Blames p owner x e

section Descriptions

variable {p : Program} {x : Occurrence} {T : SchemaTable} {e : Error}

/-- Whatever fails, but for want of levels, fails because of a type that is refused. -/
theorem blames_within {n : Nat} (hr : ((within p n x.type x.module).runOn T).1 = .error e)
    (he : ∀ text, e ≠ .endlessType text) : Blames p T.stack.head? x e := by
  induction n generalizing x T with
  | zero => exact absurd (Except.error.inj hr).symm (he _)
  | succ n ih =>
    have hi (t : TypeExpr) (module : List String) : Replays (within p n t module) :=
      .within p n t module
    have hshape : ((shapeOf p (within p n) x.bare.type x.bare.module).runOn T).1 = .error e :=
      error_bind_pure.mp hr
    rcases shapeOf_occurrence p x.bare with ⟨-, d, args, -, -, -, hc, heq⟩ | ⟨-, hasks⟩
    · rw [heq] at hshape
      have hexpand : Asks .none (fun t module => ⟨t, module⟩ ∈ writtenIn d args) Eq
          (within p n) (within p n) True Eq (expansionOf p (within p n) d args)
          (expansionOf p (within p n) d args) :=
        asks_expansionOf schemaCongruence_eq fun t ht => List.mem_map_of_mem ht
      have hreplays := workClosed_replays.of_asks (fun t module _ => hi t module) hexpand
      rcases hrun : Work.runOn _ T with ⟨e' | s, T₁⟩ <;> rw [hrun] at hshape <;> cases hshape
      obtain ⟨-, name, T₂, -, hr₂, -, -⟩ := componentOf_eq_error hreplays.grows hrun
      rcases hexpand.error hi (by rw [hr₂]) with ⟨_, _, hF, -⟩ | ⟨t, module, T₃, ht, hstack, hr₃⟩
      · exact hF.elim
      · -- The key of the component is on top of the stack while it is expanded.
        have hw := ih (x := ⟨t, module⟩) hr₃
        rw [hstack] at hw
        exact .inside hc ht hw
    · have hasks : Asks _ (fun t module => ⟨t, module⟩ ∈ p.inPlace x.bare) Eq (within p n)
        (within p n) True Eq _ _ := hasks True schemaCongruence_eq
      rcases hasks.error hi hshape with ⟨f, _, ⟨rfl, hF⟩, rfl⟩ | ⟨t, module, T₁, ht, hstack, hr₁⟩
      · exact .here hF
      · have hy := ih (x := ⟨t, module⟩) hr₁
        rw [hstack] at hy
        exact .inPlace ht hy

/-- A type that another one leads to is written in the declaration of a struct or enum, the key of
which is given, and only types that are described in place are in between. -/
inductive Program.WrittenIn (p : Program) (x y : Occurrence) : String → Prop
  | intro {z w : Occurrence} {d : TypeDecl} {args : List TypeExpr} : p.Reaches x z →
    p.component? z.bare = some (d, args) → w ∈ writtenIn d args → ReflTransGen p.Needs w y →
    WrittenIn p x y (d.key args)

theorem Program.WrittenIn.head {y z : Occurrence} {c : String} (hy : y ∈ p.next x)
    (h : p.WrittenIn y z c) : p.WrittenIn x z c := by
  obtain ⟨hz, hc, hw, hneeds⟩ := h
  exact ⟨.head hy hz, hc, hw, hneeds⟩

/-- A refused type is met with the owner of the first type, or it is written in a component that the
first type leads to. -/
theorem Blames.refused {owner : Option String} (h : Blames p owner x e) :
    ∃ y f, Refused p y.module y.bare.type f ∧
      ((ReflTransGen p.Needs x y ∧ e = f (owner.getD y.bare.type.text)) ∨
        ∃ c, p.WrittenIn x y c ∧ e = f c) := by
  induction h with
  | here h => exact ⟨_, _, h, .inl ⟨.refl, rfl⟩⟩
  | inPlace hx _ ih =>
    obtain ⟨z, f, hz, ⟨hyz, he⟩ | ⟨c, hc, he⟩⟩ := ih
    · exact ⟨z, f, hz, .inl ⟨.head hx hyz, he⟩⟩
    · exact ⟨z, f, hz, .inr ⟨c, hc.head (List.mem_append_left _ hx), he⟩⟩
  | @inside _ x w d args _ hc hw _ ih =>
    obtain ⟨z, f, hz, ⟨hwz, he⟩ | ⟨c, hfound, he⟩⟩ := ih
    · exact ⟨z, f, hz, .inr ⟨_, ⟨.refl, hc, hw, hwz⟩, he⟩⟩
    · have hnext : w ∈ p.next x := List.mem_append_right _ (by rwa [hc])
      exact ⟨z, f, hz, .inr ⟨c, hfound.head hnext, he⟩⟩

/-- Work on a type that starts while nothing is being expanded ends so. If a type is refused, it is
the first type or one that it leads to, and it is reported with the innermost struct or enum that it
is written in, or with itself if no struct or enum is in between. -/
structure Program.Reports (p : Program) (x : Occurrence) (T : SchemaTable) {α : Type}
    (work : Compile α) : Prop where
  stack : (work.runOn T).2.stack = []
  context : ∀ e c, (work.runOn T).1 = .error e → e.context? = some c →
    ∃ y f, Refused p y.module y.bare.type f ∧ e = f c ∧
      (p.WrittenIn x y c ∨ ReflTransGen p.Needs x y ∧ c = y.bare.type.text)

theorem context?_of_refused {module : List String} {t : TypeExpr} {f : String → Error}
    (h : Refused p module t f) (c : String) : (f c).context? = some c := by
  cases h <;> rfl

theorem Program.Reports.of_within {n : Nat} {α : Type} {f : FieldType → α} (hT : T.stack = []) :
    p.Reports x T (within p n x.type x.module >>= fun a => pure (f a)) where
  stack := by
    have hreplays := (Replays.within p n x.type x.module).bind fun a => Replays.pure (f a)
    rw [(hreplays.grows T).stack, hT]
  context e c hr hc := by
    have hblames := blames_within (error_bind_pure.mp hr) fun text he => by
      rw [he] at hc
      cases hc
    rw [hT] at hblames
    obtain ⟨y, f, hy, h⟩ := hblames.refused
    refine ⟨y, f, hy, ?_⟩
    rcases h with ⟨hxy, rfl⟩ | ⟨c', hwritten, rfl⟩
    · obtain rfl := Option.some.inj ((context?_of_refused hy _).symm.trans hc)
      exact ⟨rfl, .inr ⟨hxy, rfl⟩⟩
    · obtain rfl := Option.some.inj ((context?_of_refused hy _).symm.trans hc)
      exact ⟨rfl, .inl hwritten⟩

end Descriptions

/-- Whatever was compiled before, well or not, nothing is being expanded afterwards, and an error is
reported where the refused type is written. -/
theorem reports_compile {p : Program} {T : SchemaTable} (hT : T.stack = []) :
    (∀ calls, (after p T calls).stack = []) ∧
      (∀ type module, p.Reports ⟨type, module⟩ T (p.compileType type module)) ∧
      ∀ field container module,
        p.Reports ⟨field.type, module⟩ T (p.compileMember field container module) := by
  refine ⟨fun calls => ?_, fun _ _ => .of_within hT, fun _ _ _ => .of_within hT⟩
  rw [(grows_after calls).stack, hT]

/-- A struct of structs, which have a map with numbers as keys under the name of an alias. -/
def nestedKeys : Program where
  structs := [⟨[], [], "Outer", [], .named
      [⟨[], true, some "items", .path ["Vec"] [.path ["Inner"] []]⟩]⟩,
    ⟨[], [], "Inner", [], .named [⟨[], true, some "ids", .path ["Ids"] []⟩]⟩]
  aliases := [⟨[], [], "Ids", [], numberMap⟩]

/-- The map is found in the inner struct, and after that failure, compiled on its own, in nothing
but itself. -/
theorem reports_compile_nested :
    let outer := nestedKeys.compileType (.path ["Outer"] []) []
    let map := nestedKeys.compileType numberMap []
    let t := (outer.runOn {}).2
    (outer.runOn {}).1 = .error (.unsupportedMapKey "u32" "Inner") ∧
      nestedKeys.Reports ⟨.path ["Outer"] [], []⟩ {} outer ∧
      (map.runOn t).1 = .error (.unsupportedMapKey "u32" "HashMap<u32, String>") ∧
      nestedKeys.Reports ⟨numberMap, []⟩ t map := by
  have hstack : ((nestedKeys.compileType (.path ["Outer"] []) []).runOn {}).2.stack = [] := by rfl
  exact ⟨by rfl, (reports_compile (T := {}) rfl).2.1 _ _, by rfl, (reports_compile hstack).2.1 _ _⟩

end ServiceContract
