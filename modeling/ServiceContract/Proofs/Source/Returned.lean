import ServiceContract.Proofs.Source.Positions

/-! # What a block can evaluate to

A block evaluates to a leaf of its own value, or to a leaf of the operand of a `return`. All of
these are listed, each once, also those of equal expressions in different places. Only closures are
left out, so the list has more than that if a `return` with an operand stands in a declaration or an
asynchronous block.
-/

namespace ServiceContract.Source

open Source.Part

/-- The part stands in the same body. -/
def Role.isOwn : Role → Bool
  | inside _ | argument => false
  | _ => true

/-- An expression that is not looked into for its value. -/
def Expr.isLeaf : Expr → Bool
  | .block _ | .uncheckedBlock _ | .ifThen _ _ _ | .matchOn _ _ | .paren _ | .returns _ => false
  | .call f [_] => !f.isWrapper
  | _ => true

/-- The value of an expression may be that of the leaf at a position. -/
def LeafAt (e : Expr) (p : Position) (x : Expr) : Prop :=
  Leads Role.isValue e p x ∧ x.isLeaf = true

/-- A position has a leaf of a block, or of the operand of a `return` that is found in parts of some
roles. -/
def YieldsAt (keep : Role → Bool) (b : Block) (p : Position) (x : Expr) : Prop :=
  LeafAt (.block b) p x ∨
    ∃ q v l, Leads keep (.block b) q (.returns (some v)) ∧ LeafAt v l x ∧ p = q ++ 0 :: l

section Leaves

variable {r : Role}

theorem kept_isValue_ofStmts (hr : r.isValue = false) :
    (∀ s, kept Role.isValue (ofStmt r s) = []) ∧ ∀ b, kept Role.isValue (ofStmts r b) = [] := by
  apply ofStmt.mutual_induct
  all_goals
    intros
    simp_all [ofStmt, ofStmts, Role.isValue]

theorem tailLeaves_eq (b : Block) :
    tailLeaves b = (kept Role.isValue (ofBlock b)).flatMap leaves := by
  fun_induction ofBlock b with
  | case1 => rfl
  | case2 attributes e => simp [tailLeaves, Role.isValue]
  | case3 s rest hne ih =>
    rw [kept_append, (kept_isValue_ofStmts (r := .step) rfl).1, List.nil_append, ← ih]
    exact tailLeaves.eq_3 s rest hne

theorem armLeaves_eq (arms : List Arm) :
    armLeaves arms = (kept Role.isValue (arms.flatMap ofArm)).flatMap leaves := by
  induction arms with
  | nil => rfl
  | cons a rest ih =>
    obtain ⟨_, inner, guard, body⟩ := a
    simp [armLeaves, ih, ofArm, Role.isValue]

/-- The leaves of an expression are it itself, or those of the parts that may be its value. -/
theorem leaves_eq (e : Expr) :
    leaves e = (if e.isLeaf then [e] else []) ++ (kept Role.isValue e.parts).flatMap leaves := by
  cases e with
  | call f args => match args with
    | [] => simp [leaves, Expr.isLeaf, Expr.parts, Role.isValue]
    | [a] =>
      rw [leaves, ← Expr.isWrapper]
      cases h : f.isWrapper <;> simp [Expr.isLeaf, Expr.parts, Role.isValue, h]
    | a :: b :: as => simp [leaves, Expr.isLeaf, Expr.parts, Role.isValue]
  | block b | uncheckedBlock b => simp [leaves, Expr.isLeaf, Expr.parts, tailLeaves_eq]
  | ifThen c b otherwise =>
    cases otherwise <;> simp [leaves, Expr.isLeaf, Expr.parts, tailLeaves_eq, Role.isValue]
  | matchOn e arms => simp [leaves, Expr.isLeaf, Expr.parts, armLeaves_eq, Role.isValue]
  | constBlock b =>
    simp [leaves, Expr.isLeaf, Expr.parts, (kept_isValue_ofStmts (r := .inside .constant) rfl).2]
  | asyncBlock b =>
    simp [leaves, Expr.isLeaf, Expr.parts, (kept_isValue_ofStmts (r := .inside .async) rfl).2]
  | tryBlock b | loop b | whileLoop _ b | forLoop _ _ _ b =>
    simp [leaves, Expr.isLeaf, Expr.parts, Role.isValue, (kept_isValue_ofStmts (r := .step) rfl).2]
  | _ => simp [leaves, Expr.isLeaf, Expr.parts, Role.isValue]

end Leaves

variable {keep keep' : Role → Bool} {b : Block} {e v v' x x' : Expr} {p q q' l l' : Position}

theorem enumerates_leaves (e : Expr) : Enumerates (LeafAt e) (leaves e) :=
  (enumerates_leads Expr.isLeaf leaves_eq e).enumerates List.lt_irrefl

/-- A leaf is not found through a `return`, which has no value itself. -/
theorem not_leafAt_through {o : Option Expr} (h : Leads keep e q (.returns o)) :
    ¬ LeafAt e (q ++ 0 :: l) x := by
  rintro ⟨hx, -⟩
  obtain ⟨y, hy, hx⟩ := Leads.append_iff.mp hx
  obtain rfl := h.unique hy
  obtain ⟨r, c, hc, hr, -⟩ := Leads.cons_iff.mp hx
  cases o with
  | none => cases hc
  | some v =>
    cases hc
    cases hr

/-- The operand of a `return` inside another one's operand is at a position of its own. -/
theorem operand_position_inj {m : Position} (h : Leads keep e q (.returns (some v)))
    (h' : Leads keep' e (q ++ m) (.returns (some v'))) (hx : LeafAt v l x)
    (heq : 0 :: l = m ++ 0 :: l') : m = [] := by
  cases m with
  | nil => rfl
  | cons i m =>
    obtain ⟨rfl, rfl⟩ := List.cons.inj heq
    obtain ⟨y, hy, h'⟩ := Leads.append_iff.mp h'
    obtain rfl := h.unique hy
    obtain ⟨r, c, hc, -, h'⟩ := Leads.cons_iff.mp h'
    cases hc
    exact absurd hx (not_leafAt_through h')

/-- A leaf of an operand is one of no other operand. -/
theorem return_unique (h : Leads keep e q (.returns (some v)))
    (h' : Leads keep' e q' (.returns (some v'))) (hx : LeafAt v l x) (hx' : LeafAt v' l' x')
    (heq : q ++ 0 :: l = q' ++ 0 :: l') : q = q' := by
  rcases List.append_eq_append_iff.mp heq with ⟨m, rfl, hm⟩ | ⟨m, rfl, hm⟩
  · rw [operand_position_inj h h' hx hm, List.append_nil]
  · rw [operand_position_inj h' h hx' hm, List.append_nil]

theorem returned_eq (b : Block) : returned b = leaves (.block b) ++
    ((Walk.mk false false).expr (.block b)).flatMap fun e => match e with
      | .returns (some v) => leaves v
      | _ => [] := by
  rw [returned, leaves, Walk.expr, List.flatMap_cons]
  rfl

/-- What a block can evaluate to is listed, together with what the asynchronous blocks and the
declarations in it return, each occurrence once. -/
theorem enumerates_returned (b : Block) :
    Enumerates (YieldsAt (Walk.mk false false).goesTo b) (returned b) := by
  let w : Walk := ⟨false, false⟩
  have walked : Enumerates (fun q e => Leads w.goesTo (.block b) q e ∧ true = true)
      (w.expr (.block b)) :=
    (enumerates_leads (fun _ => true) w.expr_eq _).enumerates List.lt_irrefl
  have operand (q : Position) (e : Expr) : Enumerates
      (fun p x => ∃ v l, e = .returns (some v) ∧ LeafAt v l x ∧ p = q ++ 0 :: l)
      (match e with | .returns (some v) => leaves v | _ => []) := by
    split
    · next v =>
      have hinj : Function.Injective (q ++ 0 :: · : Position → Position) := fun l l' h =>
        (List.cons.inj (List.append_cancel_left h)).2
      refine ((enumerates_leaves v).reindex hinj).congr fun p x => ?_
      grind
    · next hne => exact .nil fun p x => by grind
  rw [returned_eq]
  refine ((enumerates_leaves _).append (walked.flatMap (fun q e _ => operand q e) ?_) ?_).congr
    fun p x => ?_
  · rintro q e q' e' p x y ⟨h, -⟩ ⟨h', -⟩ ⟨v, l, rfl, hx, rfl⟩ ⟨v', l', rfl, hx', heq⟩
    exact return_unique h h' hx hx' heq
  · rintro p x y hx ⟨q, e, ⟨h, -⟩, v, l, rfl, -, rfl⟩
    exact not_leafAt_through h hx
  · unfold YieldsAt
    grind

theorem YieldsAt.mono (h : YieldsAt keep b p x) (hk : ∀ r, keep r = true → keep' r = true) :
    YieldsAt keep' b p x :=
  h.imp_right fun ⟨q, v, l, hq, hx, hp⟩ => ⟨q, v, l, hq.mono hk, hx, hp⟩

/-- Nothing else is listed exactly if every `return` outside closures that gives a value returns
from the block. -/
theorem enumerates_own_iff (b : Block) : Enumerates (YieldsAt Role.isOwn b) (returned b) ↔
    ∀ q v l x, Leads (Walk.mk false false).goesTo (.block b) q (.returns (some v)) →
      LeafAt v l x → Leads Role.isOwn (.block b) q (.returns (some v)) := by
  have own (r : Role) (hr : r.isOwn = true) : (Walk.mk false false).goesTo r = true := by
    cases r with
    | inside body => cases hr
    | argument => cases hr
    | _ => rfl
  constructor
  · intro h q v l x hq hx
    rcases (enumerates_returned b).eq_of_imp h (fun p x h => h.mono own) (q ++ 0 :: l) x
      (.inr ⟨q, v, l, hq, hx, rfl⟩) with htail | ⟨q', v', l', hq', hx', heq⟩
    · exact absurd htail (not_leafAt_through hq)
    · obtain rfl := return_unique hq hq' hx hx' heq
      exact hq.unique hq' ▸ hq'
  · intro h
    refine (enumerates_returned b).congr fun p x => ⟨?_, fun hp => hp.mono own⟩
    exact Or.imp_right fun ⟨q, v, l, hq, hx, hp⟩ => ⟨q, v, l, h q v l x hq hx, hx, hp⟩

/-- What a block can evaluate to is listed, each occurrence once, and nothing that a closure in it
returns. What asynchronous blocks and declarations in it return is listed too, so the list has no
more than the block itself can evaluate to exactly if none of them returns a value. -/
theorem returned_once (b : Block) :
    Enumerates (YieldsAt (Walk.mk false false).goesTo b) (returned b) ∧
      (Enumerates (YieldsAt Role.isOwn b) (returned b) ↔
        ∀ q v l x, Leads (Walk.mk false false).goesTo (.block b) q (.returns (some v)) →
          LeafAt v l x → Leads Role.isOwn (.block b) q (.returns (some v))) :=
  ⟨enumerates_returned b, enumerates_own_iff b⟩

section Inner

def number (n : Nat) : Expr := .lit (.int false n)

/-- The body of something inside a block. -/
def returningOne : Block := [.expr [] (.returns (some (number 1))) true]

/-- A block with a function in it. -/
def declaring : Block := [.item [.block returningOne], .expr [] (number 2) false]

/-- A block with an asynchronous block in it. -/
def deferring : Block :=
  [.binding (.name "task") [] (some (.asyncBlock returningOne)) none, .expr [] (number 2) false]

end Inner

/-- Both blocks evaluate to two only, and both lists have the one that is returned inside. -/
theorem returned_inner :
    (returned declaring = [number 2, number 1] ∧
      ¬ Enumerates (YieldsAt Role.isOwn declaring) (returned declaring)) ∧
    returned deferring = [number 2, number 1] ∧
      ¬ Enumerates (YieldsAt Role.isOwn deferring) (returned deferring) := by
  refine ⟨⟨rfl, fun h => ?_⟩, rfl, fun h => ?_⟩
  · have := (enumerates_own_iff declaring).mp h [0, 0] (number 1) [] (number 1)
      (.down rfl rfl (.down rfl rfl (.here _))) ⟨.here _, rfl⟩
    obtain ⟨r, c, hc, hr, -⟩ := Leads.cons_iff.mp this
    cases hc
    cases hr
  · have := (enumerates_own_iff deferring).mp h [0, 0] (number 1) [] (number 1)
      (.down rfl rfl (.down rfl rfl (.here _))) ⟨.here _, rfl⟩
    obtain ⟨r, c, hc, -, h⟩ := Leads.cons_iff.mp this
    cases hc
    obtain ⟨r, c, hc, hr, -⟩ := Leads.cons_iff.mp h
    cases hc
    cases hr

end ServiceContract.Source
