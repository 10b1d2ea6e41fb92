import ServiceContract.Proofs.Enumerates
import ServiceContract.Proofs.Program.Recording
import ServiceContract.Program.Lookup

/-! # Where declarations stand

What source files declare has an address: the number of the file, the numbers of the modules to
enter in it, and the number of the declaration; what stands in an implementation block has its
number in the block besides. Addresses are ordered as the text is. A program has everything that
its files declare, each at its address, in this order.
-/

namespace ServiceContract

open Source

/-- Where something stands: numbers from the outside to the inside. -/
abbrev Address := List ℕ

/-- What stands at the first address stands before what stands at the second one, and neither is
inside the other. -/
inductive Address.Precedes : Address → Address → Prop
  | here {i j : ℕ} {a b : Address} : i < j → Precedes (i :: a) (j :: b)
  | inside {i : ℕ} {a b : Address} : Precedes a b → Precedes (i :: a) (i :: b)

/-- An address leads through modules from an item to a declaration. -/
inductive Stands : List String → Item → Address → Declared Item → Prop
  | here (module : List String) (item : Item) : Stands module item [] ⟨module, item⟩
  | inside {module : List String} {name : String} {items : List Item} {i : ℕ} {item : Item}
      {a : Address} {d : Declared Item} :
    items[i]? = some item → Stands (module ++ [name]) item a d →
    Stands module (.module name (some items)) (i :: a) d

/-- An address leads from files to a declaration. -/
inductive StandsIn (files : List SourceFile) : Address → Declared Item → Prop
  | intro {k i : ℕ} {file : SourceFile} {item : Item} {a : Address} {d : Declared Item} :
    files[k]? = some file → file.items[i]? = some item → Stands file.module item a d →
    StandsIn files (k :: i :: a) d

/-- The constant that a declaration is, or those that it has as an implementation block of a named
type. -/
inductive ConstOf : Declared Item → Address → ConstDecl → Prop
  | ofModule {module : List String} {item : ConstItem} :
    ConstOf ⟨module, .const item⟩ [] { module, selfType := none, item }
  | ofType {module : List String} {target : TypeExpr} {members : List Member} {path : TypePath}
      {j : ℕ} {item : ConstItem} :
    target.asPath? = some path → members[j]? = some (.const item) →
    ConstOf ⟨module, .impl target members⟩ [j] { module, selfType := some path.name, item }

/-- The owner of what blocks for a path in a module implement: the declared type that the path
means, or the name itself in the module if it means none. -/
inductive Program.IsOwner (p : Program) (module : List String) (path : TypePath) : String → Prop
  | declared {d : TypeDecl} :
    p.findType path module = some d → IsOwner p module path d.qualifiedName
  | undeclared :
    p.findType path module = none → IsOwner p module path (qualify module path.name)

/-- The function that a declaration is, which has no owner, or the methods that it has as an
implementation block of a named type, which have one. -/
inductive FnOf (p : Program) : Declared Item → Address → FnDecl → Prop
  | ofModule {module : List String} {item : FnItem} :
    FnOf p ⟨module, .fn item⟩ []
      { key := qualify module item.name, module, selfType := none, owner := none, item }
  | ofType {module : List String} {target : TypeExpr} {members : List Member} {path : TypePath}
      {j : ℕ} {item : FnItem} {owner : String} :
    target.asPath? = some path → members[j]? = some (.fn item) → p.IsOwner module path owner →
    FnOf p ⟨module, .impl target members⟩ [j]
      { key := qualify module path.name ++ "::" ++ item.name, module,
        selfType := some path.name, owner := some owner, item }

/-- Something stands in a declaration of files. -/
inductive FoundIn {α : Type} (files : List SourceFile) (Q : Declared Item → Address → α → Prop) :
    Address → α → Prop
  | intro {a b : Address} {d : Declared Item} {x : α} :
    StandsIn files a d → Q d b x → FoundIn files Q (a ++ b) x

/-- A program has what its files declare, everything once and in the order of the text. -/
structure Program.Records (p : Program) (files : List SourceFile) : Prop where
  structs : EnumeratesBy (· < ·)
    (fun a (s : Declared StructItem) => StandsIn files a ⟨s.module, .struct s.item⟩) p.structs
  enums : EnumeratesBy (· < ·)
    (fun a (e : Declared EnumItem) => StandsIn files a ⟨e.module, .enum e.item⟩) p.enums
  aliases : EnumeratesBy (· < ·)
    (fun a (t : Declared AliasItem) => StandsIn files a ⟨t.module, .typeAlias t.item⟩) p.aliases
  statics : EnumeratesBy (· < ·)
    (fun a (s : Declared StaticItem) => StandsIn files a ⟨s.module, .static s.item⟩) p.statics
  consts : EnumeratesBy (· < ·) (FoundIn files ConstOf) p.consts
  fns : EnumeratesBy (· < ·) (FoundIn files (FnOf p)) p.fns

namespace Address

variable {a b c d : Address}

theorem Precedes.lt (h : Precedes a b) : a < b := by
  induction h with
  | here hij => exact List.cons_lt_cons_iff.mpr (.inl hij)
  | inside _ ih => exact List.cons_lt_cons_iff.mpr (.inr ⟨rfl, ih⟩)

/-- What is inside the first stands before what is inside the second. -/
theorem Precedes.append (h : Precedes a b) : Precedes (a ++ c) (b ++ d) := by
  induction h with
  | here hij => exact .here hij
  | inside _ ih => exact .inside ih

theorem Precedes.append_left (h : Precedes b c) : Precedes (a ++ b) (a ++ c) := by
  induction a with
  | nil => exact h
  | cons i a ih => exact .inside ih

end Address

open Address

/-- A module whose items are in the same file. -/
def Source.Item.isInline : Item → Bool
  | .module _ (some _) => true
  | _ => false

section Lists

variable {α β : Type} {files : List SourceFile} {module : List String} {item : Item} {a : Address}
  {d : Declared Item}

/-- What is listed for the members of a list, one after the other, has its addresses inside
theirs. -/
theorem EnumeratesBy.nested {f : α → List β} {Q : α → Address → β → Prop} {l : List α}
    (hf : ∀ x ∈ l, EnumeratesBy Precedes (Q x) (f x)) :
    EnumeratesBy Precedes (fun a y => ∃ i x, l[i]? = some x ∧ ∃ b, i :: b = a ∧ Q x b y)
      (l.flatMap f) := by
  refine (EnumeratesBy.places l).flatMap
    (fun i x hx => (hf x (List.mem_of_getElem? hx)).reindex fun _ _ => .inside) ?_
  rintro i x j x' a y b y' - - hij ⟨_, rfl, -⟩ ⟨_, rfl, -⟩
  exact .here hij

theorem stands_iff (h : item.isInline = false) : Stands module item a d ↔
    a = [] ∧ d = ⟨module, item⟩ := by
  constructor
  · rintro (_ | _)
    · exact ⟨rfl, rfl⟩
    · cases h
  · rintro ⟨rfl, rfl⟩
    exact .here module item

theorem stands_inline_iff {name : String} {items : List Item} (hd : d.item.isInline = false) :
    Stands module (.module name (some items)) a d ↔
      ∃ i item, items[i]? = some item ∧ ∃ b, i :: b = a ∧ Stands (module ++ [name]) item b d := by
  constructor
  · rintro (_ | ⟨hi, hs⟩)
    · cases hd
    · exact ⟨_, _, hi, _, rfl, hs⟩
  · rintro ⟨i, item, hi, b, rfl, hs⟩
    exact .inside hi hs

namespace Program

theorem locatedAll_eq (module : List String) (items : List Item) :
    locatedAll module items = items.flatMap (located module) := by
  induction items with
  | nil => rfl
  | cons item items ih => rw [locatedAll, ih, List.flatMap_cons]

theorem lists_singleton (h : item.isInline = false) :
    EnumeratesBy Precedes (fun a d => Stands module item a d ∧ d.item.isInline = false)
      [⟨module, item⟩] := by
  refine .singleton (i := []) fun a d => ?_
  rw [stands_iff h]
  constructor
  · exact And.left
  · rintro ⟨rfl, rfl⟩
    exact ⟨⟨rfl, rfl⟩, h⟩

mutual

theorem lists_located (module : List String) : ∀ item : Item,
    EnumeratesBy Precedes (fun a d => Stands module item a d ∧ d.item.isInline = false)
      (located module item)
  | .module name (some items) => by
    rw [located, locatedAll_eq]
    refine (EnumeratesBy.nested (lists_located_mem (module ++ [name]) items)).congr fun a d => ?_
    constructor
    · rintro ⟨i, item, hi, b, rfl, hs, hd⟩
      exact ⟨.inside hi hs, hd⟩
    · rintro ⟨hs, hd⟩
      obtain ⟨i, item, hi, b, rfl, hinner⟩ := (stands_inline_iff hd).mp hs
      exact ⟨i, item, hi, b, rfl, hinner, hd⟩
  | .module _ none | .fn _ | .struct _ | .enum _ | .typeAlias _ | .const _ | .static _
  | .impl _ _ | .other => lists_singleton rfl

theorem lists_located_mem (module : List String) : ∀ items : List Item, ∀ item ∈ items,
    EnumeratesBy Precedes (fun a d => Stands module item a d ∧ d.item.isInline = false)
      (located module item)
  | [] => nofun
  | item :: items =>
    List.forall_mem_cons.mpr ⟨lists_located module item, lists_located_mem module items⟩

end

/-- All declarations of files, but for the modules that are entered. -/
theorem lists_files (files : List SourceFile) :
    EnumeratesBy Precedes (fun a d => StandsIn files a d ∧ d.item.isInline = false)
      (files.flatMap fun f => locatedAll f.module f.items) := by
  simp only [locatedAll_eq]
  refine (EnumeratesBy.nested fun file _ => EnumeratesBy.nested fun item _ =>
    lists_located file.module item).congr fun a d => ?_
  constructor
  · rintro ⟨k, file, hk, _, rfl, i, item, hi, b, rfl, hs, hd⟩
    exact ⟨.intro hk hi hs, hd⟩
  · rintro ⟨⟨hk, hi, hs⟩, hd⟩
    exact ⟨_, _, hk, _, rfl, _, _, hi, _, rfl, hs, hd⟩

/-- What is listed for each declaration, those modules apart. -/
theorem lists_found {f : Declared Item → List β} {Q : Declared Item → Address → β → Prop}
    (hf : ∀ d, EnumeratesBy Precedes (Q d) (f d))
    (hQ : ∀ d b x, Q d b x → d.item.isInline = false) :
    EnumeratesBy Precedes (FoundIn files Q)
      ((files.flatMap fun f => locatedAll f.module f.items).flatMap f) := by
  refine ((lists_files files).flatMap
    (fun a d _ => (hf d).reindex (f := (a ++ ·)) fun _ _ => .append_left) ?_).congr fun a x => ?_
  · -- everything inside the earlier declaration stands before everything inside the later one
    rintro a d a' d' b x b' x' - - hlt ⟨c, rfl, -⟩ ⟨c', rfl, -⟩
    exact hlt.append
  · constructor
    · rintro ⟨a, d, ⟨hs, -⟩, b, rfl, hx⟩
      exact .intro hs hx
    · rintro ⟨hs, hx⟩
      exact ⟨_, _, ⟨hs, hQ _ _ _ hx⟩, _, rfl, hx⟩

/-- The declarations of one kind. -/
theorem lists_kind {kind : α → Item} {f : Declared Item → Option (Declared α)}
    (hkind : ∀ x, (kind x).isInline = false)
    (hf : ∀ d x, f d = some x ↔ d = ⟨x.module, kind x.item⟩) :
    EnumeratesBy Precedes (fun a (x : Declared α) => StandsIn files a ⟨x.module, kind x.item⟩)
      ((files.flatMap fun f => locatedAll f.module f.items).filterMap f) := by
  refine (lists_files files).filterMap.congr fun a x => ?_
  constructor
  · rintro ⟨d, ⟨hs, -⟩, hd⟩
    rwa [← (hf d x).mp hd]
  · exact fun hs => ⟨_, ⟨hs, hkind x.item⟩, (hf _ x).mpr rfl⟩

/-- What is listed for the members of a block. -/
theorem lists_members {Q : Address → β → Prop} {f : Member → Option β} {members : List Member}
    (hQ : ∀ b x, Q b x ↔ ∃ j m, b = [j] ∧ members[j]? = some m ∧ f m = some x) :
    EnumeratesBy Precedes Q (members.filterMap f) := by
  refine ((EnumeratesBy.places members).reindex (f := fun j => [j])
    fun _ _ => .here).filterMap.congr fun b x => ?_
  rw [hQ]
  constructor
  · rintro ⟨m, ⟨j, rfl, hm⟩, hx⟩
    exact ⟨j, m, rfl, hm, hx⟩
  · rintro ⟨j, m, rfl, hm, hx⟩
    exact ⟨m, ⟨j, rfl, hm⟩, hx⟩

theorem lists_constsOf (d : Declared Item) : EnumeratesBy Precedes (ConstOf d) (constsOf d) := by
  obtain ⟨module, item⟩ := d
  cases item with
  | const c =>
    refine .singleton (i := []) fun b x => ?_
    constructor
    · rintro ⟨⟩
      exact ⟨rfl, rfl⟩
    · rintro ⟨rfl, rfl⟩
      exact .ofModule
  | impl target members =>
    rw [Recording.constsOf_impl]
    cases htarget : target.asPath? with
    | none =>
      refine .nil fun b x h => ?_
      cases h with
      | ofType hpath => cases htarget.symm.trans hpath
    | some path =>
      refine lists_members fun b x => ?_
      constructor
      · rintro (_ | ⟨hpath, hm⟩)
        cases htarget.symm.trans hpath
        exact ⟨_, _, rfl, hm, rfl⟩
      · rintro ⟨j, m, rfl, hm, hx⟩
        cases m with
        | fn _ => cases hx
        | const c =>
          cases hx
          exact .ofType htarget hm
  | _ => exact .nil fun _ _ h => by cases h

theorem isOwner_iff {p : Program} {path : TypePath} {owner : String} :
    p.IsOwner module path owner ↔ owner = ownerName p.types module path := by
  have hfind : resolveType p.types path module = p.findType path module := rfl
  rw [ownerName, hfind]
  constructor
  · rintro (h | h) <;> rw [h]
  · rintro rfl
    split
    · next d h => exact .declared h
    · next h => exact .undeclared h

theorem lists_fnsOf (p : Program) (d : Declared Item) :
    EnumeratesBy Precedes (FnOf p d) (fnsOf p.types d) := by
  obtain ⟨module, item⟩ := d
  cases item with
  | fn f =>
    refine .singleton (i := []) fun b x => ?_
    constructor
    · rintro ⟨⟩
      exact ⟨rfl, rfl⟩
    · rintro ⟨rfl, rfl⟩
      exact .ofModule
  | impl target members =>
    rw [fnsOf]
    cases htarget : target.asPath? with
    | none =>
      refine .nil fun b x h => ?_
      cases h with
      | ofType hpath => cases htarget.symm.trans hpath
    | some path =>
      refine lists_members fun b x => ?_
      constructor
      · rintro (_ | ⟨hpath, hm, howner⟩)
        cases htarget.symm.trans hpath
        rw [isOwner_iff.mp howner]
        exact ⟨_, _, rfl, hm, rfl⟩
      · rintro ⟨j, m, rfl, hm, hx⟩
        cases m with
        | const _ => cases hx
        | fn f =>
          cases hx
          exact .ofType htarget hm (isOwner_iff.mpr rfl)
  | _ => exact .nil fun _ _ h => by cases h

/-- The program of source files has what they declare, and each method has the owner that all
types of the program tell. -/
theorem ofFiles_records (files : List SourceFile) : (ofFiles files).Records files := by
  have hlt {γ : Type} {P : Address → γ → Prop} {l : List γ} (h : EnumeratesBy Precedes P l) :
      EnumeratesBy (· < ·) P l := h.mono fun _ _ => Precedes.lt
  have hconsts : ∀ d b x, ConstOf d b x → d.item.isInline = false := by
    rintro d b x (_ | _) <;> rfl
  have hfns : ∀ d b x, FnOf (ofFiles files) d b x → d.item.isInline = false := by
    rintro d b x (_ | _) <;> rfl
  -- the functions are told by the program itself, which is rewritten in both places
  rw [ofFiles_eq] at hfns ⊢
  exact
    { structs := hlt <| lists_kind (fun _ => rfl) fun ⟨_, i⟩ ⟨_, _⟩ => by
        cases i <;> simp [structsOf]
      enums := hlt <| lists_kind (fun _ => rfl) fun ⟨_, i⟩ ⟨_, _⟩ => by
        cases i <;> simp [enumsOf]
      aliases := hlt <| lists_kind (fun _ => rfl) fun ⟨_, i⟩ ⟨_, _⟩ => by
        cases i <;> simp [aliasesOf]
      statics := hlt <| lists_kind (fun _ => rfl) fun ⟨_, i⟩ ⟨_, _⟩ => by
        cases i <;> simp [staticsOf]
      consts := hlt (lists_found lists_constsOf hconsts)
      fns := hlt (lists_found (lists_fnsOf _) hfns) }

/-- A method belongs to the type that its block names, also if a later file declares the type. -/
example (type : StructItem) (method : FnItem) :
    let create := { type with name := "Create" }
    let audit := .impl (.path ["super", "Create"] []) [.fn method]
    (ofFiles [⟨"src/orders/extra.rs", ["orders", "extra"], [audit]⟩,
      ⟨"src/orders.rs", ["orders"], [.struct create]⟩]).fns.map FnDecl.owner =
        [some "orders::Create"] := rfl

end Program

end Lists

end ServiceContract
