import ServiceContract.Proofs.Document.Parameters
import ServiceContract.Proofs.Text.Pieces

/-! # Templates of paths

The path of an operation is a normal form: its segments are those of the paths of the operators,
one after the other, and a segment that is written with a colon stands for a parameter.
-/

namespace ServiceContract

namespace Endpoint

variable {ps : List Parameter} {p q raw segment : String} {segments : List String}

/-- The segments of a path: what stands between its slashes, unless that is empty. -/
def segmentsOf (path : String) : List String :=
  (Text.splitOn '/' path).filter fun s => !s.isEmpty

/-- The path of some segments. -/
def pathFrom (segments : List String) : String := "/" ++ Text.join "/" segments

/-- A segment that can stand in the path of an operation. -/
structure IsSegment (segment : String) : Prop where
  ne_empty : segment ≠ ""
  slash : '/' ∉ segment.toList
  colon : segment.toList.head? ≠ some ':'

/-- A path in normal form begins with a slash, and no segment after it is empty or begins with a
colon; the root is a slash alone. -/
def IsNormal (path : String) : Prop :=
  path = "/" ∨ ∃ first rest, Text.splitOn '/' path = "" :: first :: rest ∧
    ∀ s ∈ first :: rest, s ≠ "" ∧ s.toList.head? ≠ some ':'

/-- A parameter of a path is declared. -/
def Declares (ps : List Parameter) (name : String) : Prop :=
  ∃ x ∈ ps, x.name = name ∧ x.location = ParamLocation.path.text

/-- How a segment is written, and how it stands in the path of an operation with some parameters. -/
inductive Templates (ps : List Parameter) : String → String → Prop
  | parameter {name : String} : Declares ps name →
    Templates ps (":" ++ name) ("\x7b" ++ name ++ "\x7d")
  | undeclared {name : String} : ¬ Declares ps name → Templates ps (":" ++ name) "0"
  | plain {segment : String} : segment.toList.head? ≠ some ':' → Templates ps segment segment

theorem segmentsOf_append (p q : String) :
    segmentsOf (p ++ "/" ++ q) = segmentsOf p ++ segmentsOf q := by
  have h : Text.splitOn '/' (p ++ "/" ++ q) = _ := Text.splitOn_append
  rw [segmentsOf, h, List.filter_append]
  rfl

theorem segmentsOf_join (paths : List String) :
    segmentsOf (Text.join "/" paths) = paths.flatMap segmentsOf := by
  induction paths with
  | nil => rfl
  | cons p paths ih =>
    cases paths with
    | nil => simp [Text.join]
    | cons q rest =>
      rw [List.flatMap_cons, ← ih, ← segmentsOf_append]
      exact congrArg segmentsOf (String.intercalate_cons_cons ..)

theorem templatePath_eq (raw : String) (ps : List Parameter) :
    templatePath raw ps = pathFrom ((segmentsOf raw).map (templateSegment ps)) := rfl

theorem splitOn_pathFrom (hne : segments ≠ []) (h : ∀ s ∈ segments, '/' ∉ s.toList) :
    Text.splitOn '/' (pathFrom segments) = "" :: segments := by
  have happend : pathFrom segments = "" ++ String.singleton '/' ++ Text.join "/" segments := by
    simp [pathFrom]
  have hjoin : Text.splitOn '/' (Text.join "/" segments) = segments := Text.splitOn_join hne h
  rw [happend, Text.splitOn_append, hjoin]
  rfl

theorem segmentsOf_pathFrom (h : ∀ s ∈ segments, IsSegment s) :
    segmentsOf (pathFrom segments) = segments := by
  cases segments with
  | nil => decide
  | cons s rest =>
    rw [segmentsOf, splitOn_pathFrom (List.cons_ne_nil _ _) fun s hs => (h s hs).slash,
      List.filter_cons_of_neg (by simp), List.filter_eq_self]
    exact fun s hs => by simpa using (h s hs).ne_empty

theorem isNormal_pathFrom (h : ∀ s ∈ segments, IsSegment s) : IsNormal (pathFrom segments) := by
  cases segments with
  | nil => exact .inl rfl
  | cons s rest =>
    exact .inr ⟨s, rest, splitOn_pathFrom (List.cons_ne_nil _ _) fun s hs => (h s hs).slash,
      fun s hs => ⟨(h s hs).ne_empty, (h s hs).colon⟩⟩

theorem hasParameter_iff {name : String} :
    hasParameter ps name ParamLocation.path.text = true ↔ Declares ps name := by
  simp [hasParameter, Declares]

theorem templates_templateSegment (ps : List Parameter) (segment : String) :
    Templates ps segment (templateSegment ps segment) := by
  unfold templateSegment
  cases h : Text.stripPrefix? ":" segment with
  | some name =>
    obtain rfl := Text.stripPrefix?_eq_some_iff.mp h
    by_cases hd : Declares ps name
    · simpa only [hasParameter_iff.mpr hd, if_true] using .parameter hd
    · simpa only [mt hasParameter_iff.mp hd, if_false] using .undeclared hd
  | none =>
    refine .plain fun hhead => ?_
    obtain ⟨rest, hrest⟩ := List.head?_eq_some_iff.mp hhead
    have hsegment : segment = ":" ++ String.ofList rest := String.toList_inj.mp (by simp [hrest])
    rw [Text.stripPrefix?_eq_some_iff.mpr hsegment] at h
    cases h

theorem Templates.isSegment {written : String} (h : Templates ps written segment)
    (hw : written ∈ segmentsOf raw) : IsSegment segment := by
  obtain ⟨hpiece, hne⟩ := List.mem_filter.mp hw
  have hslash := Text.not_mem_of_mem_splitOn hpiece
  cases h with
  | @parameter name hd =>
    refine ⟨by simp [← String.toList_inj], ?_, by simp⟩
    simpa [String.toList_append] using hslash
  | undeclared => exact ⟨by decide, by decide, by decide⟩
  | plain hcolon => exact ⟨by simpa using hne, hslash, hcolon⟩

/-- What stands in the path of an operation is not written as a parameter any more. -/
theorem templateSegment_eq_self (h : IsSegment segment) : templateSegment ps segment = segment := by
  have ht := templates_templateSegment ps segment
  generalize templateSegment ps segment = s at ht
  cases ht with
  | parameter | undeclared => exact absurd (by simp) h.colon
  | plain => rfl

theorem isSegment_of_mem_map (h : segment ∈ (segmentsOf raw).map (templateSegment ps)) :
    IsSegment segment := by
  obtain ⟨written, hw, rfl⟩ := List.mem_map.mp h
  exact (templates_templateSegment ps written).isSegment hw

theorem segmentsOf_templatePath (raw : String) (ps : List Parameter) :
    segmentsOf (templatePath raw ps) = (segmentsOf raw).map (templateSegment ps) :=
  segmentsOf_pathFrom fun _ => isSegment_of_mem_map

theorem isNormal_templatePath (raw : String) (ps : List Parameter) :
    IsNormal (templatePath raw ps) :=
  isNormal_pathFrom fun _ => isSegment_of_mem_map

theorem templates_templatePath (raw : String) (ps : List Parameter) :
    List.Forall₂ (Templates ps) (segmentsOf raw) (segmentsOf (templatePath raw ps)) := by
  rw [segmentsOf_templatePath, List.forall₂_map_right_iff]
  exact List.forall₂_same.mpr fun s _ => templates_templateSegment ps s

theorem templatePath_templatePath (raw : String) (ps : List Parameter) :
    templatePath (templatePath raw ps) ps = templatePath raw ps := by
  rw [templatePath_eq, segmentsOf_templatePath, templatePath_eq]
  congr 1
  exact (List.map_congr_left fun s hs => templateSegment_eq_self (isSegment_of_mem_map hs)).trans
    (List.map_id _)

theorem templatePath_append (p q : String) (ps : List Parameter) :
    templatePath (p ++ "/" ++ q) ps =
      pathFrom (segmentsOf (templatePath p ps) ++ segmentsOf (templatePath q ps)) := by
  rw [templatePath_eq, segmentsOf_append, List.map_append, segmentsOf_templatePath,
    segmentsOf_templatePath]

end Endpoint

namespace Generation

open Endpoint

/-- Paths are brought into a normal form, segment by segment: what is written with a colon becomes a
parameter if one is declared, and nothing else changes. Doing so a second time changes nothing, and
it does not matter whether it is done before or after paths are put together. So the path of an
operation has the segments of the paths in its chain, and every parameter in it is one that the
operation declares. -/
theorem ofProgram_templates :
    (∀ raw ps, IsNormal (templatePath raw ps) ∧
      List.Forall₂ (Templates ps) (segmentsOf raw) (segmentsOf (templatePath raw ps)) ∧
      templatePath (templatePath raw ps) ps = templatePath raw ps) ∧
    (∀ p q ps, templatePath (p ++ "/" ++ q) ps =
      pathFrom (segmentsOf (templatePath p ps) ++ segmentsOf (templatePath q ps))) ∧
    ∀ p config g, ofProgram p config = .ok g → ∃ tree,
      RouteTree.ofProgram p config.entryPoints = .ok tree ∧
      ∀ o ∈ g.document.operations, IsNormal o.2.1 ∧ ∃ r chain,
        Compiles (.ofProgram p) {} tree.routes r chain ∧
        o.2.2.operationId = (Endpoint.fold chain r.label).leaf.id ∧
        List.Forall₂ (Templates o.2.2.parameters) (chain.flatMap fun op => segmentsOf op.path)
          (segmentsOf o.2.1) := by
  refine ⟨fun raw ps => ⟨isNormal_templatePath raw ps, templates_templatePath raw ps,
    templatePath_templatePath raw ps⟩, templatePath_append, fun p config g h => ?_⟩
  obtain ⟨tree, s', ht, hr⟩ := ofProgram_eq_ok.mp h
  obtain ⟨schema, hops⟩ := exists_compiles ht hr
  refine ⟨tree, ht, fun o ho => ?_⟩
  obtain ⟨r, front, leaf, hc, -, heq, -⟩ := hops o ho
  have hpath : o.2.1 = templatePath (Text.join "/" ((front ++ [leaf]).map (·.path)))
      o.2.2.parameters := by rw [heq]; rfl
  rw [hpath]
  refine ⟨isNormal_templatePath _ _, r, _, hc, by rw [heq]; rfl, ?_⟩
  have htemplates := templates_templatePath
    (Text.join "/" ((front ++ [leaf]).map (·.path))) o.2.2.parameters
  rwa [segmentsOf_join, List.flatMap_map] at htemplates

/-- Two segments stand for parameters, and the third is one that nothing declares. -/
theorem ofProgram_templates_tenants : ∃ g, ofProgram tenants {} = .ok g ∧
    ∃ o ∈ g.document.operations, o.2.1 = "/tenants/{tenant}/users/{id}/0" ∧
      ∃ written, List.Forall₂ (Templates o.2.2.parameters) written (segmentsOf o.2.1) := by
  obtain ⟨g, hg, hpaths⟩ : ∃ g, ofProgram tenants {} = .ok g ∧
      (g.document.operations.map (·.2.1) ==
        ["/tenants/{tenant}/users/{id}/0"]) = true :=
    exists_ofProgram_of_inOrder? (by decide +kernel)
  obtain ⟨tree, -, htemplates⟩ := ofProgram_templates.2.2 _ _ g hg
  obtain ⟨o, hops, heq⟩ := List.map_eq_singleton_iff.mp (eq_of_beq hpaths)
  have ho : o ∈ g.document.operations := hops ▸ List.mem_cons_self
  obtain ⟨-, r, chain, -, -, hsegments⟩ := htemplates o ho
  exact ⟨g, hg, o, ho, heq, _, hsegments⟩

end Generation

end ServiceContract
