import Mathlib.Data.List.Forall2
import ServiceContract.Proofs.Route.Reading

/-! # Scopes of names

In Rust a name means what the innermost `let` in scope has bound it to, and no block changes what
names mean after it; so do the names in the patterns of closures, loops, arms and conditions, which
are bound to parts of values. A replay keeps one table of names for a whole body, where a `let`
without a scope and a name of a part change nothing. Both come to the same where no name is used
whose place in the table may be out of date, which can be told from the text.
-/

namespace ServiceContract

open Source

/-- What the names in scope are bound to, the innermost first; none if it is no scope. -/
abbrev Bindings := List (String × Option ScopeId)

/-- What an assignment changes is what the innermost `let` has bound; what is no scope changes
nothing. -/
def Bindings.assign (bindings : Bindings) (name : String) : Option ScopeId → Bindings
  | some id =>
    if (bindings.lookup name).isSome then setKey name (some id) bindings else bindings
  | none => bindings

/-- A script in which names are scoped. -/
abbrev LexicalScript := StateT Bindings Script

namespace Lexical

variable {α : Type}

/-- A step that has to do with no names. -/
def lift (x : BodyScript α) : LexicalScript α := fun bindings =>
  (x []).bind fun r => .done (r.1, bindings)

/-- A path stands for what its name is bound to, and else for a static. -/
def ofPath (p : Path) : LexicalScript (Option ScopeId) := fun bindings =>
  match p.ident?.bind fun name => (bindings.lookup name).join, p.last? with
  | some id, _ => .done (some id, bindings)
  | none, some name => .static name fun scope => .done (scope, bindings)
  | none, none => .done (none, bindings)

/-- A `let` binds a name, whatever it was bound to before. -/
def letName (name : Option String) (scope : Option ScopeId) : LexicalScript Unit :=
  match name with
  | some n => modify fun bindings => (n, scope) :: bindings
  | none => return

def assign (name : Option String) (scope : Option ScopeId) : LexicalScript Unit :=
  match name with
  | some n => modify fun bindings => bindings.assign n scope
  | none => return

/-- What a block binds is forgotten at its end. -/
def nested (x : LexicalScript α) : LexicalScript α := fun bindings =>
  (x bindings).bind fun r => .done (r.1, r.2.drop (r.2.length - bindings.length))

/-- The steps of bodies where names are scoped. -/
def reading : BodyReading LexicalScript (Option ScopeId) where
  nothing := none
  ofPath := ofPath
  newScope operators := lift (Body.newScope operators)
  register parent children := lift (Body.flat.register parent children)
  attach target operators := lift (Body.flat.attach target operators)
  serve scope := lift (Body.serve scope)
  call f args := lift (Body.call f args)
  wrapped := Body.flat.wrapped
  bind name scope := letName name scope.join
  assign := assign
  nested := nested

end Lexical

/-- What the text tells about a value. -/
inductive Certainty
  /-- It is a scope. -/
  | scope
  /-- It is none. -/
  | nothing
  /-- It is what a name stood for when the table had been written to so many times. -/
  | named (name : String) (writes : Nat)
  | either
  deriving DecidableEq

/-- What the text tells about the names at a place in a body. -/
structure Sight where
  /-- The names in scope, the innermost first, with the values of their `let`s. -/
  scope : List (String × Certainty)
  /-- The names that may have been written to the table, once for each time. -/
  seen : List String
  /-- The names whose place in the table may be out of date. -/
  stale : List String

namespace Sight

/-- The names that may have been given a scope by their `let`. -/
def counting (scope : List (String × Certainty)) : List String :=
  (scope.filter fun e => e.2 ≠ .nothing).map Prod.fst

/-- Fails for a name that may be out of date, and for one that is bound to no scope while the table
may have another. -/
def use (name : String) (st : Sight) : Option Certainty :=
  if name ∈ st.stale then none
  else
    match st.scope.lookup name with
    | some .scope => some .scope
    | some .nothing => if name ∈ st.seen then none else some (.named name st.seen.length)
    | _ => some (.named name st.seen.length)

/-- After a `let` the table has its value, unless this may be none while the table has another. -/
def letName (name : String) (c : Certainty) (st : Sight) : Sight where
  scope := (name, c) :: st.scope
  seen := if c = .nothing then st.seen else name :: st.seen
  stale :=
    if c = .scope ∨ c = .named name st.seen.length then st.stale.filter (· ≠ name)
    else if c = .nothing ∨ name ∉ st.seen then st.stale
    else name :: st.stale

/-- After an assignment too, if it is the one that counts that has changed. -/
def assign (name : String) (c : Certainty) (st : Sight) : Sight :=
  if c = .nothing then st
  else
    { st with
      seen := name :: st.seen
      stale :=
        match st.scope.lookup name with
        | some .nothing | none => name :: st.stale
        | some _ => st.stale }

/-- At the end of a block the table still has what names were bound to in it. -/
def leave (outer inner : Sight) : Sight where
  scope := outer.scope
  seen := inner.seen
  stale := counting (inner.scope.take (inner.scope.length - outer.scope.length)) ++ inner.stale

/-- Reads a body for what the text tells; fails where a name is used that may be out of date. -/
def reading : BodyReading (StateT Sight Option) Certainty where
  nothing := .nothing
  ofPath p := fun st =>
    match p.ident? with
    | some name => (st.use name).map (·, st)
    | none => some (.either, st)
  newScope _ := return .scope
  register parent _ := return parent
  attach target _ := return target
  serve _ := return
  call _ _ := return .either
  wrapped args :=
    match args with
    | [c] => c
    | _ => .nothing
  bind name c :=
    match name with
    | some n => modify (letName n (c.getD .either))
    | none => return
  assign name c :=
    match name with
    | some n => modify (assign n c)
    | none => return
  nested statements := fun st => (statements st).map fun (c, inner) => (c, st.leave inner)

end Sight

/-- Whether a certainty is true of a value, at a place where the table is this one. -/
def Certainty.Tells (st : Sight) (locals : Locals) : Certainty → Option ScopeId → Prop
  | scope, a => a.isSome = true
  | nothing, a => a = none
  | named name writes, a => writes ≤ st.seen.length ∧
    (writes = st.seen.length → a = none → locals.lookup name = none)
  | either, _ => True

/-- Whether a place comes after another one: the table is as it was, unless it has been written
to. -/
def Sight.Later (st : Sight) (locals : Locals) (st' : Sight) (locals' : Locals) : Prop :=
  st.seen.length < st'.seen.length ∨ st'.seen.length = st.seen.length ∧ locals' = locals

/-- A table in which a name has been given a value; what is no scope changes nothing. -/
def Locals.give (locals : Locals) (name : String) : Option ScopeId → Locals
  | some id => setKey name id locals
  | none => locals

theorem Locals.lookup_give_self {locals : Locals} {name : String} {a : Option ScopeId} :
    (locals.give name a).lookup name = a.or (locals.lookup name) := by
  cases a with
  | none => rfl
  | some id => exact lookup_setKey_self

theorem Locals.lookup_give_of_ne {locals : Locals} {name other : String} {a : Option ScopeId}
    (h : other ≠ name) : (locals.give name a).lookup other = locals.lookup other := by
  cases a with
  | none => rfl
  | some id => exact lookup_setKey_of_ne h

theorem Bindings.assign_cons {b : String × Option ScopeId} {bindings : Bindings} {name : String}
    {a : Option ScopeId} : Bindings.assign (b :: bindings) name a =
    if b.1 = name then (b.1, a.or b.2) :: bindings else b :: bindings.assign name a := by
  obtain ⟨n, a'⟩ := b
  cases a with
  | none => exact (ite_self _).symm
  | some id =>
    rw [Bindings.assign, Bindings.assign, setKey, lookup_cons_ite]
    by_cases hn : n = name
    · rw [if_pos hn.symm, if_pos hn, if_pos hn]
      rfl
    · rw [if_neg (Ne.symm hn), if_neg hn, if_neg hn]
      split <;> rfl

/-- Whether what the text tells about a name is true of its binding. -/
structure Sight.Entry (seen : List String) (e : String × Certainty) (b : String × Option ScopeId) :
    Prop where
  name : e.1 = b.1
  scope : e.2 = .scope → b.2.isSome = true
  nothing : e.2 = .nothing → e.1 ∉ seen → b.2 = none

/-- What a name is bound to, not counting a `let` that surely gives it no scope. -/
def Sight.counted (name : String) : List (String × Certainty) → Bindings → Option ScopeId
  | e :: scope, b :: bindings =>
    if e.1 = name ∧ e.2 ≠ .nothing then b.2 else counted name scope bindings
  | _, _ => none

/-- Whether what the text tells is true of a table and of the bindings in scope: the table has what
names are bound to, unless it may be out of date. -/
structure Sight.Agrees (st : Sight) (locals : Locals) (bindings : Bindings) : Prop where
  entries : List.Forall₂ (Entry st.seen) st.scope bindings
  seen : ∀ n, n ∉ st.seen → locals.lookup n = none
  counted : ∀ n, n ∉ st.stale → locals.lookup n = Sight.counted n st.scope bindings

namespace Sight

variable {st st' : Sight} {locals : Locals} {bindings : Bindings} {name other : String}
  {c : Certainty} {a : Option ScopeId} {id : ScopeId} {seen seen' : List String}
  {scope : List (String × Certainty)} {e : String × Certainty} {b : String × Option ScopeId}

theorem Entry.mono (h : Entry seen e b) (hs : ∀ n ∈ seen, n ∈ seen') : Entry seen' e b :=
  ⟨h.name, h.scope, fun hc hn => h.nothing hc (mt (hs _) hn)⟩

theorem entries_mono (h : List.Forall₂ (Entry seen) scope bindings) (hs : ∀ n ∈ seen, n ∈ seen') :
    List.Forall₂ (Entry seen') scope bindings := h.imp fun _ _ he => he.mono hs

theorem counted_cons : counted name (e :: scope) (b :: bindings) =
    if e.1 = name ∧ e.2 ≠ .nothing then b.2 else counted name scope bindings := rfl

/-- The innermost binding of a name. -/
theorem entries_lookup (name : String) (h : List.Forall₂ (Entry seen) scope bindings) :
    match scope.lookup name with
    | none => bindings.lookup name = none ∧ counted name scope bindings = none
    | some c => ∃ a, bindings.lookup name = some a ∧ Entry seen (name, c) (name, a) ∧
      (c ≠ .nothing → counted name scope bindings = a) := by
  induction h with
  | nil => exact ⟨rfl, rfl⟩
  | @cons e b scope bindings he _ ih =>
    obtain ⟨n, c⟩ := e
    obtain ⟨m, a⟩ := b
    obtain rfl : n = m := he.name
    rw [lookup_cons_ite, lookup_cons_ite, counted_cons]
    by_cases hn : name = n
    · subst hn
      rw [if_pos rfl, if_pos rfl]
      exact ⟨a, rfl, he, fun hc => if_pos ⟨rfl, hc⟩⟩
    · rw [if_neg hn, if_neg hn, if_neg fun hc => hn hc.1.symm]
      exact ih

/-- The names of bindings that are inner to others do not count for these others. -/
theorem counted_append {new : List (String × Certainty)} (hn : name ∉ counting new)
    (hlen : new.length ≤ bindings.length) :
    counted name (new ++ scope) bindings = counted name scope (bindings.drop new.length) := by
  induction new generalizing bindings with
  | nil => rfl
  | cons e new ih =>
    cases bindings with
    | nil => cases hlen
    | cons b bindings =>
      have hskip : ¬(e.1 = name ∧ e.2 ≠ .nothing) := fun ⟨he, hc⟩ =>
        hn (List.mem_map.mpr ⟨e, by simp [hc], he⟩)
      have hnew : name ∉ counting new := fun h => hn (by
        simp only [counting, List.mem_map, List.mem_filter] at h ⊢
        obtain ⟨e', ⟨he', hc⟩, hname⟩ := h
        exact ⟨e', ⟨List.mem_cons_of_mem _ he', hc⟩, hname⟩)
      rw [List.cons_append, counted_cons, if_neg hskip]
      exact ih hnew (Nat.le_of_succ_le_succ hlen)

/-- An assignment changes the innermost binding of a name. -/
theorem entries_assign (name : String) (a : Option ScopeId)
    (h : List.Forall₂ (Entry seen) scope bindings) :
    List.Forall₂ (Entry (name :: seen)) scope (bindings.assign name a) := by
  have hs : ∀ n ∈ seen, n ∈ name :: seen := fun _ => List.mem_cons_of_mem _
  induction h with
  | nil => cases a <;> exact .nil
  | @cons e b scope bindings he hrest ih =>
    rw [Bindings.assign_cons]
    split
    · next hb =>
      refine .cons ⟨he.name, fun hc => ?_, fun _ hn => ?_⟩ (entries_mono hrest hs)
      · simp [he.scope hc]
      · exact absurd (he.name.trans hb ▸ List.mem_cons_self) hn
    · exact .cons (he.mono hs) ih

/-- It changes nothing for other names. -/
theorem counted_assign_of_ne (h : List.Forall₂ (Entry seen) scope bindings)
    (hother : other ≠ name) :
    counted other scope (bindings.assign name a) = counted other scope bindings := by
  induction h with
  | nil => cases a <;> rfl
  | @cons e b scope bindings he _ ih =>
    rw [Bindings.assign_cons]
    split
    · next hb =>
      have hskip : ¬(e.1 = other ∧ e.2 ≠ .nothing) := fun hc =>
        hother (hc.1.symm.trans (he.name.trans hb))
      rw [counted_cons, counted_cons, if_neg hskip, if_neg hskip]
    · rw [counted_cons, counted_cons, ih]

namespace Later

variable {st'' : Sight} {locals' locals'' : Locals}

theorem refl (st : Sight) (locals : Locals) : Later st locals st locals := .inr ⟨rfl, rfl⟩

theorem trans (h : Later st locals st' locals') (h' : Later st' locals' st'' locals'') :
    Later st locals st'' locals'' := by
  rcases h with hlt | ⟨heq, rfl⟩
  · exact .inl (h'.elim (Nat.lt_trans hlt) fun he => he.1 ▸ hlt)
  · exact h'.imp (heq ▸ ·) fun he => ⟨he.1.trans heq, he.2⟩

/-- What is told about a value stays true. -/
theorem tells (h : Later st locals st' locals') (hc : c.Tells st locals a) :
    c.Tells st' locals' a := by
  cases c with
  | scope | nothing | either => exact hc
  | named n writes =>
    rcases h with hlt | ⟨heq, rfl⟩
    · exact ⟨Nat.le_trans hc.1 (Nat.le_of_lt hlt),
        fun he => absurd he (Nat.ne_of_lt (Nat.lt_of_le_of_lt hc.1 hlt))⟩
    · rw [Certainty.Tells, heq]
      exact hc

theorem letName (hc : c.Tells st locals a) :
    Later st locals (st.letName name c) (locals.give name a) := by
  by_cases hnothing : c = .nothing
  · subst hnothing
    obtain rfl : a = none := hc
    exact .inr ⟨rfl, rfl⟩
  · refine .inl ?_
    rw [Sight.letName, if_neg hnothing]
    exact Nat.lt_succ_self _

theorem assign (hc : c.Tells st locals a) :
    Later st locals (st.assign name c) (locals.give name a) := by
  unfold Sight.assign
  split
  · next hnothing =>
    subst hnothing
    obtain rfl : a = none := hc
    exact .refl _ _
  · exact .inl (Nat.lt_succ_self _)

end Later

namespace Agrees

theorem mono (h : st.Agrees locals bindings) (hscope : st'.scope = st.scope)
    (hseen : ∀ n ∈ st.seen, n ∈ st'.seen) (hstale : ∀ n ∈ st.stale, n ∈ st'.stale) :
    st'.Agrees locals bindings where
  entries := hscope ▸ entries_mono h.entries hseen
  seen n hn := h.seen n (mt (hseen n) hn)
  counted n hn := hscope ▸ h.counted n (mt (hstale n) hn)

/-- Where a name may be used, the table has what it is bound to; its value is that of a static if
this is no scope. -/
theorem use (h : st.Agrees locals bindings) (hc : st.use name = some c) :
    locals.lookup name = (bindings.lookup name).join ∧
      ∀ a, c.Tells st locals ((locals.lookup name).or a) := by
  have hnamed : ∀ a, (Certainty.named name st.seen.length).Tells st locals
      ((locals.lookup name).or a) := fun a =>
    ⟨Nat.le_refl _, fun _ ha => (Option.or_eq_none_iff.mp ha).1⟩
  unfold Sight.use at hc
  split at hc
  · cases hc
  · next hstale =>
    have hcounted := h.counted name hstale
    have hlookup := entries_lookup name h.entries
    cases hscope : st.scope.lookup name with
    | none =>
      rw [hscope] at hlookup hc
      cases hc
      exact ⟨by rw [hcounted, hlookup.1, hlookup.2]; rfl, hnamed⟩
    | some c' =>
      rw [hscope] at hlookup hc
      obtain ⟨a, ha, he, hcount⟩ := hlookup
      have hplace : c' ≠ .nothing → locals.lookup name = (bindings.lookup name).join :=
        fun hne => by rw [hcounted, hcount hne, ha]; rfl
      cases c' with
      | scope =>
        cases hc
        obtain ⟨id, rfl⟩ := Option.isSome_iff_exists.mp (he.scope rfl)
        refine ⟨hplace nofun, fun _ => ?_⟩
        rw [hplace nofun, ha]
        rfl
      | nothing =>
        dsimp only at hc
        split at hc
        · cases hc
        · next hseen =>
          cases hc
          obtain rfl : a = none := he.nothing rfl hseen
          exact ⟨by rw [ha, h.seen name hseen]; rfl, hnamed⟩
      | named | either =>
        cases hc
        exact ⟨hplace nofun, hnamed⟩

theorem not_mem_stale_of_letName (hn : other ∉ (st.letName name c).stale) (hne : other ≠ name) :
    other ∉ st.stale := by
  simp only [Sight.letName] at hn
  split at hn
  · exact fun hs => hn (List.mem_filter.mpr ⟨hs, by simpa using hne⟩)
  · split at hn
    · exact hn
    · exact mt (List.mem_cons_of_mem _) hn

/-- What the table has for a name after a `let` of it, unless this leaves it out of date. -/
theorem or_lookup_eq_counted (h : st.Agrees locals bindings) (hc : c.Tells st locals a)
    (hn : name ∉ (st.letName name c).stale) : a.or (locals.lookup name) =
      Sight.counted name ((name, c) :: st.scope) ((name, a) :: bindings) := by
  rw [Sight.counted_cons]
  simp only [Sight.letName] at hn
  split at hn
  · next hkept =>
    -- the value is a scope, or the table has none if it is none
    have hor : a.or (locals.lookup name) = a := by
      rcases hkept with rfl | rfl
      · obtain ⟨id, rfl⟩ := Option.isSome_iff_exists.mp hc
        rfl
      · cases a with
        | some id => rfl
        | none => exact hc.2 rfl rfl
    rw [hor, if_pos ⟨rfl, by rcases hkept with rfl | rfl <;> nofun⟩]
  · split at hn
    · next hnew =>
      by_cases hnothing : c = .nothing
      · subst hnothing
        obtain rfl : a = none := hc
        simpa using h.counted name hn
      · rw [h.seen name (hnew.resolve_left hnothing), Option.or_none, if_pos ⟨rfl, hnothing⟩]
    · exact absurd List.mem_cons_self hn

/-- A `let` may leave what an outer one has given the name in the table; then the name is out of
date. -/
theorem letName (h : st.Agrees locals bindings) (hc : c.Tells st locals a) :
    (st.letName name c).Agrees (locals.give name a) ((name, a) :: bindings) where
  entries := by
    refine .cons ⟨rfl, fun he => ?_, fun he _ => ?_⟩ (entries_mono h.entries fun n hn => ?_)
    · obtain rfl : c = .scope := he
      exact hc
    · obtain rfl : c = .nothing := he
      exact hc
    · show n ∈ if c = .nothing then st.seen else name :: st.seen
      split
      · exact hn
      · exact List.mem_cons_of_mem _ hn
  seen n hn := by
    simp only [Sight.letName] at hn
    split at hn
    · next he =>
      subst he
      obtain rfl : a = none := hc
      exact h.seen n hn
    · obtain ⟨hne, hn⟩ := not_or.mp (mt List.mem_cons.mpr hn)
      exact (Locals.lookup_give_of_ne hne).trans (h.seen n hn)
  counted n hn := by
    by_cases hne : n = name
    · subst hne
      exact Locals.lookup_give_self.trans (h.or_lookup_eq_counted hc hn)
    · rw [Locals.lookup_give_of_ne hne, h.counted n (not_mem_stale_of_letName hn hne)]
      exact (if_neg fun hc => hne hc.1.symm).symm

/-- An assignment changes the table and the innermost binding alike, if this one counts. -/
theorem assign (h : st.Agrees locals bindings) (hc : c.Tells st locals a) :
    (st.assign name c).Agrees (locals.give name a) (bindings.assign name a) := by
  have hscope : (st.assign name c).scope = st.scope := by grind [Sight.assign]
  have hseen : ∀ n ∈ st.seen, n ∈ (st.assign name c).seen := by grind [Sight.assign]
  have hstale : ∀ n ∈ st.stale, n ∈ (st.assign name c).stale := by grind [Sight.assign]
  cases a with
  | none => exact h.mono hscope hseen hstale
  | some id =>
    have hne : c ≠ .nothing := fun he => by
      subst he
      cases hc
    have hname : (st.assign name c).seen = name :: st.seen := by rw [Sight.assign, if_neg hne]
    have hcounts : name ∉ (st.assign name c).stale →
        ∃ c', st.scope.lookup name = some c' ∧ c' ≠ .nothing := by
      rw [Sight.assign, if_neg hne]
      cases st.scope.lookup name with
      | none => simp
      | some c' => cases c' <;> simp
    have hentries := entries_assign name (some id) h.entries
    refine ⟨by rwa [hname, hscope], fun n hn => ?_, fun n hn => ?_⟩
    · obtain ⟨hother, hn⟩ := not_or.mp (mt List.mem_cons.mpr (hname ▸ hn))
      exact (Locals.lookup_give_of_ne hother).trans (h.seen n hn)
    · rw [hscope]
      by_cases hother : n = name
      · subst hother
        obtain ⟨c', hc', hcount⟩ := hcounts hn
        have hbefore := entries_lookup n h.entries
        have hafter := entries_lookup n hentries
        rw [hc'] at hbefore hafter
        obtain ⟨a, ha, -, -⟩ := hbefore
        obtain ⟨a', ha', -, hcounted⟩ := hafter
        rw [Bindings.assign, if_pos (ha ▸ rfl), lookup_setKey_self] at ha'
        rw [hcounted hcount, ← Option.some.inj ha', Locals.lookup_give_self, Option.some_or]
      · rw [Locals.lookup_give_of_ne hother, counted_assign_of_ne h.entries hother]
        exact h.counted n (mt (hstale n) hn)

/-- At the end of a block, all names that have been bound in it may be out of date. -/
theorem leave {inner : Sight} {locals' : Locals} {bindings' : Bindings}
    (h : st.Agrees locals bindings) (h' : inner.Agrees locals' bindings')
    (hscope : st.scope <:+ inner.scope) :
    (st.leave inner).Agrees locals' (bindings'.drop (bindings'.length - bindings.length)) := by
  obtain ⟨new, hnew⟩ := hscope
  have hlen : bindings.length = st.scope.length := h.entries.length_eq.symm
  have hlen' : bindings'.length = new.length + st.scope.length := by
    rw [← h'.entries.length_eq, ← hnew, List.length_append]
  have hdrop : bindings'.length - bindings.length = new.length := by omega
  have htake : inner.scope.take (inner.scope.length - st.scope.length) = new := by
    simp [← hnew]
  rw [hdrop]
  refine ⟨?_, h'.seen, fun n hn => ?_⟩
  · have hentries := List.forall₂_drop new.length h'.entries
    rwa [← hnew, List.drop_left] at hentries
  · simp only [Sight.leave, htake, List.mem_append, not_or] at hn
    rw [h'.counted n hn.2, ← hnew]
    exact counted_append hn.1 (by omega)

end Agrees

end Sight

end ServiceContract
