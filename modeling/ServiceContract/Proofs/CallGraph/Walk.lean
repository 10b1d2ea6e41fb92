import ServiceContract.Proofs.Program.Lookup
import ServiceContract.StatusError.CallGraph
import Mathlib.Data.Prod.Lex

/-! # Walks of the call graph

A depth-first walk enters each function once, then walks the functions that it calls in the order
of their calls, and then leaves it.
-/

namespace ServiceContract.ErrorSearch

variable (s : ErrorSearch) {f g : FnDecl}

theorem mem_of_mem_firstByKey {fs : List FnDecl} (h : f ∈ firstByKey fs) : f ∈ fs :=
  (mem_or_mem_of_mem_foldl h).resolve_left List.not_mem_nil

variable {s} in
theorem mem_fns_of_calleeOf? {e : Source.Expr} (h : s.calleeOf? f e = some g) :
    g ∈ s.program.fns := by
  unfold calleeOf? at h
  split at h
  · split at h
    · split at h
      · cases h
      · exact Program.mem_fns_of_resolveCall h
    · cases h
  · split at h
    · obtain ⟨_, _, h⟩ := Option.bind_eq_some_iff.mp h
      exact Program.mem_fns_of_ownedMethod h
    · exact Program.mem_fns_of_uniqueMethod h
  · cases h

variable {s} in
theorem mem_fns_of_mem_callees (h : g ∈ s.callees f) : g ∈ s.program.fns := by
  obtain ⟨e, _, he⟩ := List.mem_filterMap.mp (mem_of_mem_firstByKey h)
  exact mem_fns_of_calleeOf? he

/-- A function calls another one. -/
def Calls (f g : FnDecl) : Prop := g ∈ s.callees f

/-- A step of a walk. -/
inductive Step
  | enter (f : FnDecl)
  | leave (f : FnDecl)

namespace Step

def entered? : Step → Option FnDecl
  | enter f => some f
  | leave _ => none

def left? : Step → Option FnDecl
  | enter _ => none
  | leave f => some f

end Step

/-- The functions that a walk enters. -/
def entered (w : List Step) : List FnDecl := w.filterMap Step.entered?

/-- The functions that a walk leaves. -/
def left (w : List Step) : List FnDecl := w.filterMap Step.left?

section Steps

variable {w w' : List Step}

@[simp] theorem entered_nil : entered [] = [] := rfl

@[simp] theorem entered_enter : entered (.enter f :: w) = f :: entered w := rfl

@[simp] theorem entered_leave : entered (.leave f :: w) = entered w := rfl

@[simp] theorem entered_append : entered (w ++ w') = entered w ++ entered w' :=
  List.filterMap_append

@[simp] theorem left_nil : left [] = [] := rfl

@[simp] theorem left_enter : left (.enter f :: w) = left w := rfl

@[simp] theorem left_leave : left (.leave f :: w) = f :: left w := rfl

@[simp] theorem left_append : left (w ++ w') = left w ++ left w' := List.filterMap_append

end Steps

/-- The functions of other keys. -/
def without (key : String) (fs : List FnDecl) : List FnDecl := fs.filter fun f => f.key ≠ key

theorem length_without_lt {fs : List FnDecl} (h : f.key ∈ fs.map (·.key)) :
    (without f.key fs).length < fs.length := by
  obtain ⟨g, hg, he⟩ := List.mem_map.mp h
  refine List.length_filter_lt_length_iff_exists.mpr ⟨g, hg, ?_⟩
  simp [he]

/-- The steps of the walk that has some steps ahead of it; only functions whose key is unseen are
still entered. -/
def walk (unseen : List FnDecl) : List Step → List Step
  | [] => []
  | .leave f :: ahead => .leave f :: walk unseen ahead
  | .enter f :: ahead =>
    if f.key ∈ unseen.map (·.key) then
      .enter f :: walk (without f.key unseen) ((s.callees f).map .enter ++ .leave f :: ahead)
    else walk unseen ahead
termination_by ahead => (unseen.length, ahead.length)
decreasing_by
  · simp_wf; exact Prod.Lex.right _ (by simp)
  · exact Prod.Lex.left _ _ (length_without_lt ‹_›)
  · exact Prod.Lex.right _ (by simp)

variable {s} in
theorem key_mem_of_mem_walk {unseen : List FnDecl} {ahead : List Step}
    (h : f ∈ entered (s.walk unseen ahead)) : f.key ∈ unseen.map (·.key) := by
  fun_induction walk s unseen ahead with
  | case1 => cases h
  | case2 _ _ _ ih => exact ih h
  | case3 unseen g _ hg ih =>
    rcases List.mem_cons.mp h with rfl | h
    · exact hg
    · exact List.map_subset _ (List.filter_subset_self _) (ih h)
  | case4 _ _ _ _ ih => exact ih h

theorem nodup_entered_walk (unseen : List FnDecl) (ahead : List Step) :
    ((entered (s.walk unseen ahead)).map (·.key)).Nodup := by
  fun_induction walk s unseen ahead with
  | case1 => exact List.nodup_nil
  | case2 _ _ _ ih => exact ih
  | case3 unseen g _ hg ih =>
    refine List.nodup_cons.mpr ⟨fun h => ?_, ih⟩
    obtain ⟨x, hx, he⟩ := List.mem_map.mp h
    obtain ⟨y, hy, he'⟩ := List.mem_map.mp (key_mem_of_mem_walk hx)
    simp [without, he, he'] at hy
  | case4 _ _ _ _ ih => exact ih

/-- The functions that a function leads to, itself first, in the order in which a walk enters
them. -/
def preorder (f : FnDecl) : List FnDecl := entered (s.walk s.program.fns [.enter f])

/-- The walk from a function enters each function once. -/
theorem nodup_preorder (f : FnDecl) : ((s.preorder f).map (·.key)).Nodup :=
  s.nodup_entered_walk _ _

/-- The functions of the walk from several functions, one after the other, in the order in which
it leaves them. -/
def endings (fs : List FnDecl) : List FnDecl := left (s.walk s.program.fns (fs.map .enter))

end ServiceContract.ErrorSearch
