import ServiceContract.Proofs.Schema.Components
import ServiceContract.Proofs.Schema.Expansions
import ServiceContract.Proofs.Schema.Keys
import ServiceContract.Proofs.Schema.Rename
import ServiceContract.Proofs.Text.Pieces

/-! # The order in which types are compiled

A run that ended well has expanded all its components, and expanding one of them again in the
finished table says the same. So a second run over the same types is followed step by step in the
finished table of the first: what it enters there is known here, with the same schema up to the
names of components.
-/

namespace ServiceContract

open Source TypeCompiler Schema SchemaTable

variable {p : Program} {Q : TypeExpr → Prop}

namespace SchemaTable

variable {t t' T : SchemaTable} {key name : String} {d d' : Definition}

/-- A reference with the key of the component in place of its name. -/
def byKey (t : SchemaTable) (reference : String) : String :=
  match Text.stripPrefix? componentRoot reference with
  | some name => componentRoot ++ (t.names.lookup name).getD name
  | none => reference

theorem Inverse.byKey_eq (h : t.Inverse) (hd : t.definition? key = some d) :
    t.byKey (componentRoot ++ d.name) = componentRoot ++ key := by
  rw [byKey, Text.stripPrefix?_eq_some_iff.mpr rfl]
  dsimp only
  rw [h.lookup_iff.mpr ⟨d, hd, rfl⟩, Option.getD_some]

theorem Inverse.distinguishes (h : t.Inverse) : Distinguishes t.byKey t.Named := by
  rintro m n ⟨key, d, hd, rfl⟩ ⟨key', d', hd', rfl⟩ heq
  rw [h.byKey_eq hd, h.byKey_eq hd', String.append_right_inj] at heq
  subst heq
  rw [Option.some.inj (hd.symm.trans hd')]

/-- Schemas of two tables are the same up to the names of components. -/
def Agree (t t' : SchemaTable) : Schema → Schema → Prop :=
  SameUnder t.byKey t'.byKey t.Named t'.Named

theorem agree_ref (h : t.Inverse) (h' : t'.Inverse) (hd : t.definition? key = some d)
    (hd' : t'.definition? key = some d') : Agree t t' (.ref d.name) (.ref d'.name) where
  same := by
    rw [mapRefs_eq, mapRefs_eq]
    simp only [ref, Option.map_some, Option.map_none, h.byKey_eq hd, h'.byKey_eq hd']
  left := every_ref ⟨key, d, hd, rfl⟩
  right := every_ref ⟨key, d', hd', rfl⟩

/-- The components of a table are in another one, with schemas that agree in two finished tables. -/
def Matches (T T' u : SchemaTable) : Prop :=
  ∀ key c, u.definition? key = some c → ∃ c', T'.definition? key = some c' ∧
    ∀ s, c.schema = some s → ∃ s', c'.schema = some s' ∧ Agree T T' s s'

end SchemaTable

/-- Work that grows a table towards a finished one is followed by work in another finished table,
which stays as it is. -/
def Follows (T T' : SchemaTable) {α : Type} (S : α → α → Prop) (x y : Compile α) : Prop :=
  ∀ u a u' b, x.runOn u = (.ok a, u') → y.runOn T' = (.ok b, T') → Matches T T' u →
    u'.CoveredBy T → Matches T T' u' ∧ S a b

namespace Follows

variable {T T' : SchemaTable} {α β : Type} {S : α → α → Prop} {S' : β → β → Prop}
  {x y : Compile α} {f g : α → Compile β} {inner inner' : TypeCompiler}

theorem bind (hx : Follows T T' S x y) (hy : Replays y)
    (hf : ∀ a b, S a b → Follows T T' S' (f a) (g b)) (hfr : ∀ a, Replays (f a))
    (hgr : ∀ b, Replays (g b)) : Follows T T' S' (x >>= f) (y >>= g) := by
  intro u c u' d hr hr' hu hT
  obtain ⟨a, u₁, hr₁, hr₂⟩ := Work.runOn_bind_eq_ok.mp hr
  obtain ⟨b, v, hr₁', hr₂'⟩ := Work.runOn_bind_eq_ok.mp hr'
  have back : Grows v T' := (hgr b).grows_of_runOn hr₂'
  -- What the first part adds would stay, and the second part ends in the same table.
  obtain rfl : v = T' := (hy.grows_of_runOn hr₁').eq_of_known fun key hk => by
    obtain ⟨c, hc⟩ := Option.isSome_iff_exists.mp hk
    exact Option.isSome_iff_exists.mpr ⟨c, back.kept hc⟩
  have hT₁ : u₁.CoveredBy T := ((hfr a).grows_of_runOn hr₂).coveredBy.trans hT
  obtain ⟨hu₁, hs⟩ := hx u a u₁ b hr₁ hr₁' hu hT₁
  exact hf a b hs u₁ c u' d hr₂ hr₂' hu₁ hT

/-- Work that asks for the same types is followed if the answers are. -/
theorem of_asks {F : Faults} {h : Prop} (types : TypeRules p Q)
    (hi : ∀ t module, Q t → Replays (inner t module))
    (hi' : ∀ t module, Q t → Replays (inner' t module))
    (ht : ∀ t module, Q t →
      Follows T T' (FieldType.Alike (Agree T T')) (inner t module) (inner' t module))
    (hx : Asks F (fun t _ => Q t) (Agree T T') inner inner' h S x y) (hh : h) :
    Follows T T' S x y := by
  have rules := workRules_replays types
  induction hx with
  | pure hs =>
    intro u c u' d hr hr' hu _
    cases hr
    cases hr'
    exact ⟨hu, hs hh⟩
  | fail e written _ _ =>
    intro u c u' d hr
    cases hr
  | type hq => exact ht _ _ hq
  | bind hx hf ihx ihf =>
    refine (ihx hh).bind (rules.of_asks_right hi' hx) (fun a b hs => ihf a b ⟨hh, hs⟩)
      (fun a => rules.of_asks hi (hf a a)) fun b => rules.of_asks_right hi' (hf b b)

end Follows

/-- A table that a run which ended well has left behind. -/
structure SchemaTable.Finished (p : Program) (t : SchemaTable) : Prop where
  inverse : t.Inverse
  expanded : ∀ key c, t.definition? key = some c →
    Expanded p (fun type => type.isPlain = true) t key c

section Finished

variable (hp : p.isPlain = true) {T T' : SchemaTable} (hT : T.Finished p) (hT' : T'.Finished p)

include hp hT hT'

/-- What is entered under a key is known under the key in the finished table, as the description of
the same use, which its expansion follows. -/
theorem follows_componentOf {d : TypeDecl} {args : List TypeExpr} {expand expand' : Compile Schema}
    (hd : ∃ path module, p.findType path module = some d) (ha : ∀ a ∈ args, a.isPlain = true)
    (hr : Replays expand) (hr' : Replays expand')
    (he : ∀ n, Follows T T' (Agree T T') expand (expansionOf p (within p n) d args)) :
    Follows T T' (Agree T T') (componentOf p d args expand) (componentOf p d args expand') := by
  intro u s u' s' hrun hrun' hu hcov
  obtain ⟨c', hc', rfl⟩ := hr'.known_of_componentOf hrun'
  have agree_of {c : Definition} (hc : u'.definition? (d.key args) = some c) :
      Agree T T' (.ref c.name) (.ref c'.name) := by
    obtain ⟨c'', hc'', hn⟩ := hcov _ c hc
    exact hn ▸ agree_ref hT.inverse hT'.inverse hc'' hc'
  rcases componentOf_eq_ok hr.grows hrun with
    ⟨c, hc, rfl, rfl⟩ | ⟨hk, name, s₁, u₁, -, hr₁, hd₁, rfl, rfl⟩
  · exact ⟨hu, agree_of hc⟩
  -- The finished table has expanded a use with the same key, so it is the same use.
  obtain ⟨d', args', n, s₂, hd', ha', hkey, hs₂, hr₂⟩ := hT'.expanded _ c' hc'
  obtain ⟨path, module, hd⟩ := hd
  obtain ⟨path', module', hd'⟩ := hd'
  obtain ⟨rfl, rfl⟩ := p.key_inj hp hd' hd ha' ha hkey
  have hcov₁ : u₁.CoveredBy T := (coveredBy_resolve hd₁).trans hcov
  -- Until its schema is there, the new entry asks nothing of the one in the finished table.
  have hu₀ : Matches T T' ((u.enter (d'.key args') name none).push (d'.key args')) := by
    intro key c hc
    rw [definition?_push, definition?_enter] at hc
    by_cases hkey : key = d'.key args'
    · rw [if_pos hkey] at hc
      cases hc
      exact ⟨c', hkey ▸ hc', fun s hs => by cases hs⟩
    · rw [if_neg hkey] at hc
      exact hu key c hc
  obtain ⟨hu₁, hs⟩ := he n _ _ _ _ hr₁ hr₂ hu₀ hcov₁
  refine ⟨fun key c hc => ?_, agree_of ((definition?_resolve hd₁).trans (if_pos rfl))⟩
  rw [definition?_resolve hd₁] at hc
  by_cases hkey : key = d'.key args'
  · rw [if_pos hkey] at hc
    cases hc
    refine ⟨c', hkey ▸ hc', fun s hs' => ?_⟩
    cases hs'
    exact ⟨_, hs₂, hs.described p d'⟩
  · rw [if_neg hkey] at hc
    exact hu₁ key c hc

/-- A growing run is followed at any depth in the finished table. -/
theorem follows_within (m n : Nat) {t : TypeExpr} (module : List String) (ht : t.isPlain = true) :
    Follows T T' (FieldType.Alike (Agree T T')) (within p m t module) (within p n t module) := by
  have types := typeRules_isPlain hp
  have rules := workRules_replays types
  have congr : SchemaCongruence (Agree T T') :=
    schemaCongruence_sameUnder p hT.inverse.distinguishes hT'.inverse.distinguishes
  -- The growing run expands a use where the finished table expanded it at another depth, so `n`
  -- is general.
  induction m generalizing n t module with
  | zero =>
    intro u a u' b hr
    cases hr
  | succ m ih =>
    cases n with
    | zero =>
      intro u a u' b hr hr'
      cases hr'
    | succ n =>
      have follow {F : Faults} {n : Nat} {S : Schema → Schema → Prop} {x y : Compile Schema}
          (hx : Asks F (fun t _ => t.isPlain = true) (Agree T T') (within p m) (within p n) True
            S x y) : Follows T T' S x y :=
        .of_asks types (fun t module ht => rules.within m module ht)
          (fun t module ht => rules.within n module ht) (fun t module ht => ih n module ht)
          hx trivial
      have hl := Layers.ofType_type t
      have ht := types.layers ht
      have hshape : Follows T T' (Agree T T')
          (shapeOf p (within p m) (Layers.ofType t).type module)
          (shapeOf p (within p n) (Layers.ofType t).type module) := by
        rcases shapeOf_cases types module ht with ⟨d, args, use⟩ | hasks
        · obtain ⟨path, hd⟩ := use.found
          have written := use.written types
          rw [use.shapeOf_eq, use.shapeOf_eq]
          exact follows_componentOf hp hT hT' ⟨path, module, hd⟩ use.known
            (rules.expansionOf (fun t module ht => rules.within m module ht) written)
            (rules.expansionOf (fun t module ht => rules.within n module ht) written)
            fun n => follow (asks_expansionOf congr written)
        · exact follow (hasks True congr)
      refine hshape.bind (rules.shapeOf (fun t module ht => rules.within n module ht) module ht hl)
        (fun s s' hs u a u' b hr hr' hu _ => ?_) (fun _ => .pure _) fun _ => .pure _
      cases hr
      cases hr'
      exact ⟨hu, hs, rfl, rfl⟩

theorem follows_compileType {t : TypeExpr} (module : List String) (ht : t.isPlain = true) :
    Follows T T' (Agree T T') (p.compileType t module) (p.compileType t module) := by
  have rules := workRules_replays (typeRules_isPlain hp)
  have congr : SchemaCongruence (Agree T T') :=
    schemaCongruence_sameUnder p hT.inverse.distinguishes hT'.inverse.distinguishes
  refine (follows_within hp hT hT' _ _ module ht).bind (rules.within _ module ht)
    (fun f f' hf u a u' b hr hr' hu _ => ?_) (fun _ => .pure _) fun _ => .pure _
  cases hr
  cases hr'
  exact ⟨hu, congr.settled hf⟩

end Finished

/-- Compiles types one after the other, each as written in a module. -/
def Program.compileAll (p : Program) (types : List (TypeExpr × List String)) :
    Compile (List Schema) :=
  types.mapM fun e => p.compileType e.1 e.2

section List

variable {γ α : Type} {f : γ → Compile α} {l : List γ} {as bs : List α}
  {t t' u u' T T' : SchemaTable} {S : α → α → Prop}

theorem Replays.mapM (hf : ∀ c ∈ l, Replays (f c)) : Replays (l.mapM f) :=
  (workRules_replays (typeRules_true {})).mapM hf

/-- Each part of work that ended well ends well in the finished table. -/
theorem forall₂_runOn_of_mapM (hf : ∀ c ∈ l, Replays (f c)) (hr : (l.mapM f).runOn t = (.ok bs, t'))
    (hT : t'.CoveredBy T) : List.Forall₂ (fun c b => (f c).runOn T = (.ok b, T)) l bs := by
  induction l generalizing t bs with
  | nil =>
    cases hr
    exact .nil
  | cons c rest ih =>
    obtain ⟨hc, hrest⟩ := List.forall_mem_cons.mp hf
    rw [List.mapM_cons] at hr
    obtain ⟨b, t₁, hr₁, hr⟩ := Work.runOn_bind_eq_ok.mp hr
    obtain ⟨bs', t₂, hr₂, hr⟩ := Work.runOn_bind_eq_ok.mp hr
    cases hr
    have hT₁ : t₁.CoveredBy T := ((Replays.mapM hrest).grows_of_runOn hr₂).coveredBy.trans hT
    exact .cons (hc.ok hr₁ hT₁) (ih hrest hr₂)

/-- A run over a list is followed if each part is, and if each part ended well in the other run. -/
theorem matches_of_mapM (hf : ∀ c ∈ l, Replays (f c))
    (follows : ∀ c ∈ l, Follows T T' S (f c) (f c))
    (known : ∀ c ∈ l, ∃ b, (f c).runOn T' = (.ok b, T')) (hr : (l.mapM f).runOn u = (.ok as, u'))
    (hu : Matches T T' u) (hT : u'.CoveredBy T) : Matches T T' u' ∧
      List.Forall₂ (fun c a => ∀ b, (f c).runOn T' = (.ok b, T') → S a b) l as := by
  induction l generalizing u as with
  | nil =>
    cases hr
    exact ⟨hu, .nil⟩
  | cons c rest ih =>
    obtain ⟨hc, hrest⟩ := List.forall_mem_cons.mp hf
    obtain ⟨hfc, hfrest⟩ := List.forall_mem_cons.mp follows
    obtain ⟨⟨b, hb⟩, hkrest⟩ := List.forall_mem_cons.mp known
    rw [List.mapM_cons] at hr
    obtain ⟨a, u₁, hr₁, hr⟩ := Work.runOn_bind_eq_ok.mp hr
    obtain ⟨as', u₂, hr₂, hr⟩ := Work.runOn_bind_eq_ok.mp hr
    cases hr
    have hT₁ : u₁.CoveredBy T := ((Replays.mapM hrest).grows_of_runOn hr₂).coveredBy.trans hT
    obtain ⟨hu₁, hs⟩ := hfc u a u₁ b hr₁ hb hu hT₁
    obtain ⟨hu₂, hss⟩ := ih hrest hfrest hkrest hr₂ hu₁
    refine ⟨hu₂, .cons (fun b' hb' => ?_) hss⟩
    obtain rfl : b = b' := by
      rw [hb] at hb'
      exact Except.ok.inj (Prod.mk.inj hb').1
    exact hs

end List

section Runs

variable (hp : p.isPlain = true) {l l' : List (TypeExpr × List String)} {ss ss' : List Schema}
  {T T' : SchemaTable}

/-- Each type that was compiled compiles again in the table that is left, which stays as it is. -/
theorem forall₂_runOn_of_compileAll (hr : (p.compileAll l).runOn {} = (.ok ss, T)) :
    List.Forall₂ (fun e s => (p.compileType e.1 e.2).runOn T = (.ok s, T)) l ss :=
  forall₂_runOn_of_mapM (fun e _ => .compileType p e.1 e.2) hr (Grows.refl T).coveredBy

include hp

theorem finished_of_compileAll (plain : ∀ e ∈ l, e.1.isPlain = true)
    (hr : (p.compileAll l).runOn {} = (.ok ss, T)) : T.Finished p := by
  have rules := workRules_expands (typeRules_isPlain hp)
  obtain ⟨replays, expands, finishes⟩ :=
    rules.mapM fun e (he : e ∈ l) => rules.compileType e.2 (plain e he)
  have hg : Grows {} T := replays.grows_of_runOn hr
  exact ⟨hg.inverse inverse_empty, fun key c hc =>
    expands {} _ T hr key c hc rfl (finishes {} ss T hr key c hc rfl)⟩

theorem matches_of_compileAll (hl : l.Perm l') (plain : ∀ e ∈ l, e.1.isPlain = true)
    (hr : (p.compileAll l).runOn {} = (.ok ss, T))
    (hr' : (p.compileAll l').runOn {} = (.ok ss', T')) : Matches T T' T ∧
      List.Forall₂ (fun e s =>
        ∀ s', (p.compileType e.1 e.2).runOn T' = (.ok s', T') → Agree T T' s s') l ss := by
  have hT := finished_of_compileAll hp plain hr
  have hT' := finished_of_compileAll hp (fun e he => plain e (hl.mem_iff.mpr he)) hr'
  have ended := forall₂_runOn_of_compileAll hr'
  have known : ∀ e ∈ l', ∃ s', (p.compileType e.1 e.2).runOn T' = (.ok s', T') :=
    ((List.forall₂_and_left _ _).mp (ended.imp fun _ s' h => ⟨⟨s', h⟩, h⟩)).1
  exact matches_of_mapM (fun e _ => .compileType p e.1 e.2)
    (fun e he => follows_compileType hp hT hT' e.2 (plain e he))
    (fun e he => known e (hl.mem_iff.mp he)) hr (fun key c hc => by cases hc)
    (Grows.refl T).coveredBy

/-- Types that compile in two orders define the same keys, with the same schemas but for the names
of components. So do the answers. -/
theorem compileAll_perm (hl : l.Perm l') (plain : ∀ e ∈ l, e.1.isPlain = true)
    (hr : (p.compileAll l).runOn {} = (.ok ss, T))
    (hr' : (p.compileAll l').runOn {} = (.ok ss', T')) :
    (∀ key, (T.definition? key).map (fun d => d.schema.map (mapRefs T.byKey)) =
        (T'.definition? key).map fun d => d.schema.map (mapRefs T'.byKey)) ∧
      (∀ key d, T.definition? key = some d → d.schema.isSome = true) ∧
      ∀ e s s', (e, s) ∈ l.zip ss → (e, s') ∈ l'.zip ss' →
        s.mapRefs T.byKey = s'.mapRefs T'.byKey := by
  have plain' : ∀ e ∈ l', e.1.isPlain = true := fun e he => plain e (hl.mem_iff.mpr he)
  have hT := finished_of_compileAll hp plain hr
  obtain ⟨there, answers⟩ := matches_of_compileAll hp hl plain hr hr'
  obtain ⟨back, -⟩ := matches_of_compileAll hp hl.symm plain' hr' hr
  have ended := forall₂_runOn_of_compileAll hr'
  have described (key d) (hd : T.definition? key = some d) : d.schema.isSome = true := by
    obtain ⟨_, _, _, _, _, _, _, hs, _⟩ := hT.expanded key d hd
    rw [hs, Option.isSome_some]
  refine ⟨fun key => ?_, described, fun e s s' hs hs' => ?_⟩
  · cases hd : T.definition? key with
    | none =>
      cases hd' : T'.definition? key with
      | none => rfl
      | some d' =>
        obtain ⟨d, hd'', -⟩ := back key d' hd'
        cases hd.symm.trans hd''
    | some d =>
      obtain ⟨d', hd', agree⟩ := there key d hd
      obtain ⟨s, hs⟩ := Option.isSome_iff_exists.mp (described key d hd)
      obtain ⟨s', hs', same⟩ := agree s hs
      rw [hd', Option.map_some, Option.map_some, hs, hs', Option.map_some, Option.map_some,
        same.same]
  · exact (List.forall₂_zip answers hs s' (List.forall₂_zip ended hs')).same

end Runs

/-- A struct with one field. -/
def oneField (module : List String) (name field : String) (type : TypeExpr) :
    Declared StructItem :=
  ⟨module, [], name, [], .named [⟨[], true, some field, type⟩]⟩

/-- Two structs of one name, one of which has a field of the other. -/
def namesakes : Program where
  structs := [oneField ["a"] "User" "id" (.path ["u64"] []),
    oneField ["b"] "User" "parent" (.path ["crate", "a", "User"] [])]

/-- The name that a component gets depends on the order, and what it stands for does not. -/
theorem compileAll_perm_namesakes :
    let user := TypeExpr.path ["User"] []
    let T := ((namesakes.compileAll [(user, ["a"]), (user, ["b"])]).runOn {}).2
    let T' := ((namesakes.compileAll [(user, ["b"]), (user, ["a"])]).runOn {}).2
    T.names = [("User", "a::User"), ("BUser", "b::User")] ∧
      T'.names = [("User", "b::User"), ("AUser", "a::User")] ∧
      ∀ key, (T.definition? key).map (fun d => d.schema.map (mapRefs T.byKey)) =
        (T'.definition? key).map fun d => d.schema.map (mapRefs T'.byKey) := by
  have plain : ∀ e ∈ [(TypeExpr.path ["User"] [], ["a"]), (.path ["User"] [], ["b"])],
      e.1.isPlain = true := by decide
  exact ⟨rfl, rfl,
    (compileAll_perm (p := namesakes) (by decide) (.swap ..) plain rfl rfl).1⟩

/-- Two modules whose paths have the same text. -/
def splitNames : Program where
  structs := [oneField ["x::y"] "U" "a" (.path ["u8"] []),
    oneField ["x", "y"] "U" "b" (.path ["String"] [])]

/-- If a module has a separator in its name, the type that is compiled first takes the key of the
other. -/
theorem compileAll_splitNames :
    let u := TypeExpr.path ["U"] []
    let r := (splitNames.compileAll [(u, ["x::y"]), (u, ["x", "y"])]).runOn {}
    let r' := (splitNames.compileAll [(u, ["x", "y"]), (u, ["x::y"])]).runOn {}
    r.1 = .ok [.ref "U", .ref "U"] ∧ r'.1 = .ok [.ref "U", .ref "U"] ∧
      (r.2.definition? "x::y::U").map (fun d => d.schema.map (mapRefs r.2.byKey)) ≠
        (r'.2.definition? "x::y::U").map fun d => d.schema.map (mapRefs r'.2.byKey) := by
  refine ⟨rfl, rfl, fun h => ?_⟩
  have hrequired := congrArg (Option.map (Option.map Schema.required)) h
  revert hrequired
  decide

end ServiceContract
