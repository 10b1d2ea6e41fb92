import ServiceContract.Proofs.Route.Body
import ServiceContract.Proofs.Route.Run

/-! # Legal moves

Every move of a run is legal in the state in which it is made: it speaks of scopes that exist, no
function is begun inside itself or begun again by a call, and what is begun is brought to its end
before anything around it. Legal moves keep states sound.
-/

namespace ServiceContract

/-- The registrations that a move is. -/
def Move.registrations : Move → Nat
  | .link _ _ => 1
  | _ => 0

namespace ReplayState

/-- What holds in all states of a replay. -/
structure Sound (p : Program) (s : ReplayState) : Prop where
  forest : s.forest.IsForest
  statics_known : ∀ e ∈ s.statics, Known s.forest.size e.2
  returned_known : ∀ e ∈ s.returned, Known s.forest.size e.2
  root_known : Known s.forest.size s.root
  statics_nodup : (s.statics.map Prod.fst).Nodup
  statics_declared : ∀ e ∈ s.statics, ∃ d ∈ p.statics, d.item.name = e.1
  stack_nodup : s.stack.Nodup
  stack_begun : ∀ key ∈ s.stack, key ∈ s.begun
  begun_declared : ∀ key ∈ s.begun, ∃ f ∈ p.fns, f.key = key
  returned_begun : ∀ e ∈ s.returned, e.1 ∈ s.begun

/-- What the replay of a program can do in a state. -/
def Legal (p : Program) (s : ReplayState) : Move → Prop
  | .make _ => True
  | .link parent child => parent < s.forest.size ∧ child < s.forest.size
  | .attach id _ => id < s.forest.size
  | .serve id => id < s.forest.size
  | .enter name => s.statics.lookup name = none ∧ ∃ d ∈ p.statics, d.item.name = name
  | .leave name scope => s.statics.lookup name = some none ∧ Known s.forest.size scope
  | .begin f way => f ∈ p.fns ∧ f.key ∉ s.stack ∧ (way.once = true → f.key ∉ s.begun)
  | .finish f way scope => s.stack.head? = some f.key ∧
    (way = .called → s.returned.lookup f.key = none) ∧ Known s.forest.size scope

/-- Each move is of a kind in the state in which it is made. -/
def Along (P : ReplayState → Move → Prop) : ReplayState → List Move → Prop
  | _, [] => True
  | s, m :: ms => P s m ∧ Along P (s.apply m) ms

variable {p : Program} {s : ReplayState} {m : Move} {ms ms' : List Move}
  {P : ReplayState → Move → Prop}

theorem along_append : s.Along P (ms ++ ms') ↔ s.Along P ms ∧ (s.after ms).Along P ms' := by
  induction ms generalizing s with
  | nil => simp [Along]
  | cons m ms ih => simp [Along, ih, and_assoc]

theorem legal_enter {name : String} {d : Declared Source.StaticItem}
    (hl : s.statics.lookup name = none)
    (hd : (p.statics.find? fun d => d.item.name == name) = some d) : s.Legal p (.enter name) :=
  ⟨hl, d, List.mem_of_find?_eq_some hd, by simpa using List.find?_some hd⟩

theorem Along.take (h : s.Along P ms) (k : Nat) : s.Along P (ms.take k) := by
  rw [← List.take_append_drop k ms, along_append] at h
  exact h.1

theorem Along.of_getElem? {k : Nat} (h : s.Along P ms) (hm : ms[k]? = some m) :
    P (s.after (ms.take k)) m := by
  obtain ⟨hk, rfl⟩ := List.getElem?_eq_some_iff.mp hm
  rw [← List.take_append_drop k ms, along_append, List.drop_eq_getElem_cons hk] at h
  exact h.2.1

theorem Sound.empty (p : Program) : Sound p {} where
  forest := .empty
  statics_known := fun _ h => nomatch h
  returned_known := fun _ h => nomatch h
  root_known := known_none
  statics_nodup := List.nodup_nil
  statics_declared := fun _ h => nomatch h
  stack_nodup := List.nodup_nil
  stack_begun := fun _ h => nomatch h
  begun_declared := fun _ h => nomatch h
  returned_begun := fun _ h => nomatch h

namespace Sound

/-- A forest that has grown. -/
theorem of_forest {forest : ScopeForest} {root : Option ScopeId} (h : s.Sound p)
    (hf : forest.IsForest) (hn : s.forest.size ≤ forest.size) (hr : Known forest.size root) :
    Sound p { s with forest, root } where
  forest := hf
  statics_known e he := (h.statics_known e he).mono hn
  returned_known e he := (h.returned_known e he).mono hn
  root_known := hr
  statics_nodup := h.statics_nodup
  statics_declared := h.statics_declared
  stack_nodup := h.stack_nodup
  stack_begun := h.stack_begun
  begun_declared := h.begun_declared
  returned_begun := h.returned_begun

theorem setStatic {name : String} {scope : Option ScopeId} (h : s.Sound p)
    (hs : Known s.forest.size scope) (hd : ∃ d ∈ p.statics, d.item.name = name) :
    Sound p { s with statics := setKey name scope s.statics } where
  __ := h
  statics_known e he := by
    rcases mem_setKey he with rfl | he
    · exact hs
    · exact h.statics_known e he
  statics_nodup := nodup_map_fst_setKey h.statics_nodup
  statics_declared e he := by
    rcases mem_setKey he with rfl | he
    · exact hd
    · exact h.statics_declared e he

/-- A legal move leads to a sound state. -/
theorem apply (h : s.Sound p) (hm : s.Legal p m) : (s.apply m).Sound p := by
  cases m with
  | make operators =>
    exact h.of_forest (h.forest.congr (fun _ => ScopeForest.parent?_add)
      fun _ => ScopeForest.children_add) (ScopeForest.size_add ▸ Nat.le_succ _)
      (h.root_known.mono (ScopeForest.size_add ▸ Nat.le_succ _))
  | link parent child =>
    exact h.of_forest (h.forest.link hm.1 hm.2) (Nat.le_of_eq ScopeForest.size_link.symm)
      (h.root_known.mono (Nat.le_of_eq ScopeForest.size_link.symm))
  | attach id operators =>
    exact h.of_forest (h.forest.congr (fun _ => ScopeForest.parent?_attach)
      fun _ => ScopeForest.children_attach) (Nat.le_of_eq ScopeForest.size_attach.symm)
      (h.root_known.mono (Nat.le_of_eq ScopeForest.size_attach.symm))
  | serve id =>
    refine h.of_forest h.forest (Nat.le_refl _) fun root hroot => ?_
    rcases Option.or_eq_some_iff.mp hroot with hroot | ⟨-, hroot⟩
    · exact h.root_known root hroot
    · exact Option.some.inj hroot ▸ hm
  | enter name => exact h.setStatic known_none hm.2
  | leave name scope =>
    exact h.setStatic hm.2 (h.statics_declared _ (mem_of_lookup hm.1))
  | begin f way =>
    have hb : ∀ key, key ∈ (s.apply (.begin f way)).begun ↔ key = f.key ∨ key ∈ s.begun :=
      fun _ => mem_begun_begin
    exact {
      forest := h.forest
      statics_known := h.statics_known
      returned_known := h.returned_known
      root_known := h.root_known
      statics_nodup := h.statics_nodup
      statics_declared := h.statics_declared
      stack_nodup := List.nodup_cons.mpr ⟨hm.2.1, h.stack_nodup⟩
      stack_begun := fun key hk =>
        (hb key).mpr ((List.mem_cons.mp hk).imp_right (h.stack_begun key))
      begun_declared := fun key hk =>
        ((hb key).mp hk).elim (fun he => ⟨f, hm.1, he.symm⟩) (h.begun_declared key)
      returned_begun := fun e he => (hb e.1).mpr (.inr (h.returned_begun e he)) }
  | finish f way scope =>
    have hbegun : f.key ∈ s.begun := h.stack_begun _ (List.mem_of_mem_head? hm.1)
    have hreturned : ∀ e ∈ (s.apply (.finish f way scope)).returned,
        e = (f.key, scope) ∨ e ∈ s.returned := by
      cases way with
      | called => exact fun e he => mem_setKey he
      | bound | entry | remaining => exact fun e he => .inr he
    exact {
      forest := h.forest
      statics_known := h.statics_known
      returned_known := fun e he => (hreturned e he).elim (· ▸ hm.2.2) (h.returned_known e)
      root_known := h.root_known
      statics_nodup := h.statics_nodup
      statics_declared := h.statics_declared
      stack_nodup := h.stack_nodup.sublist (List.tail_sublist _)
      stack_begun := fun key hk => h.stack_begun key (List.mem_of_mem_tail hk)
      begun_declared := h.begun_declared
      returned_begun := fun e he => (hreturned e he).elim (· ▸ hbegun) (h.returned_begun e) }

theorem after (h : s.Sound p) (hms : s.Along (Legal p) ms) : (s.after ms).Sound p := by
  induction ms generalizing s with
  | nil => exact h
  | cons m ms ih => exact ih (h.apply hms.1) hms.2

end Sound

/-- No legal move takes a scope from its place. -/
theorem placesKept_apply (h : s.Sound p) (hm : s.Legal p m) :
    s.forest.PlacesKept (s.apply m).forest := by
  cases m with
  | make operators => exact fun _ _ hc => ScopeForest.parent?_add.trans hc
  | link parent child => exact h.forest.placesKept_link hm.1 hm.2
  | attach id operators => exact fun _ _ hc => ScopeForest.parent?_attach.trans hc
  | serve | enter | leave | begin | finish => exact .refl _

theorem placesKept_after (h : s.Sound p) (hms : s.Along (Legal p) ms) :
    s.forest.PlacesKept (s.after ms).forest := by
  induction ms generalizing s with
  | nil => exact .refl _
  | cons m ms ih => exact (placesKept_apply h hms.1).trans (ih (h.apply hms.1) hms.2)

end ReplayState

/-- A jump in a program that hands over only scopes below a bound. -/
def Jump.Fits (p : Program) (n : Nat) : Jump → Prop
  | .static _ => True
  | .function f way => f ∈ p.fns ∧ way.params.Known n

namespace Replay

open ReplayState

/-- A task of a program that uses only scopes below a bound, and registers at most so many of them
itself. -/
def Task.Fits (p : Program) (n k : Nat) : Task → Prop
  | .script _ body => body.Fits (· ∈ p.fns) Known n k
  | .jump j => j.Fits p n
  | .turns js => ∀ j ∈ js, ∀ m, j.Fits p m

theorem known_bindParams {n : Nat} {f : FnDecl} {args : List (Option ScopeId)}
    (h : ∀ scope ∈ args, Known n scope) : (bindParams f args).Known n := by
  refine List.foldlRecOn _ _ (fun _ h => nomatch h) fun bound hb e he => ?_
  have hscope : Known n e.1 := h e.1 (List.fst_mem_of_mem_zipIdx he)
  dsimp only
  split
  · next id name hid _ => exact hb.setKey (known_some.mp (hid ▸ hscope))
  · exact hb

theorem known_params_wayOf {n : Nat} {rights : Rights} {f : FnDecl} {args : List (Option ScopeId)}
    (h : ∀ scope ∈ args, Known n scope) : (wayOf rights f args).params.Known n := by
  have hbound : Locals.Known n (if rights.binds then bindParams f args else []) := by
    split
    · exact known_bindParams h
    · exact fun _ h => nomatch h
  unfold wayOf
  generalize (if rights.binds then bindParams f args else []) = bound at hbound
  cases bound with
  | nil => exact fun _ h => nomatch h
  | cons => exact hbound

variable {p : Program} {t : Task} {s : ReplayState} {ms : List Move} {a : Option ScopeId}
  {k : Nat}

/-- A script that fits makes a legal move, and what comes after it fits. -/
theorem Step.fits {rights : Rights} {body next : Script (Option ScopeId)} {m : Move}
    (h : Step rights s body m next) (hb : body.Fits (· ∈ p.fns) Known s.forest.size k) :
    s.Legal p m ∧
      ∃ l, k = l + m.registrations ∧ next.Fits (· ∈ p.fns) Known (s.apply m).forest.size l := by
  cases h with
  | make =>
    refine ⟨trivial, k, rfl, ?_⟩
    rw [apply, ScopeForest.size_add]
    exact hb _ (Nat.le_refl _)
  | link =>
    obtain ⟨hparent, hchild, l, hl, hb⟩ := hb
    refine ⟨⟨hparent, hchild⟩, l, hl, ?_⟩
    rwa [apply, ScopeForest.size_link]
  | attach =>
    refine ⟨hb.1, k, rfl, ?_⟩
    rw [apply, ScopeForest.size_attach]
    exact hb.2
  | serve => exact ⟨hb.1, k, rfl, hb.2⟩

/-- All moves of a run are legal, and it gives a scope that exists at its end. -/
theorem Runs.legal (h : Runs p t s ms a) (hs : s.Sound p) (ht : t.Fits p s.forest.size k) :
    s.Along (Legal p) ms ∧ Known (s.after ms).forest.size a := by
  induction h generalizing k with
  | done => exact ⟨trivial, ht⟩
  | move hm _ ih =>
    obtain ⟨hlegal, l, -, ht⟩ := hm.fits ht
    obtain ⟨hms, ha⟩ := ih (hs.apply hlegal) ht
    exact ⟨⟨hlegal, hms⟩, ha⟩
  | unserved _ _ ih => exact ih hs ht.2
  | @static rights name next s ms ms' scope a hjump _ ih ih' =>
    obtain ⟨hms, hscope⟩ := ih (k := 0) hs trivial
    obtain ⟨hms', ha⟩ := ih' (hs.after hms) (ht _ hjump.keeps.size _ hscope)
    exact ⟨along_append.mpr ⟨hms, hms'⟩, by rwa [after_append]⟩
  | @call rights f args next s ms ms' scope a hjump _ ih ih' =>
    obtain ⟨hf, hargs, ht⟩ := ht
    obtain ⟨hms, hscope⟩ := ih (k := 0) hs ⟨hf, known_params_wayOf hargs⟩
    obtain ⟨hms', ha⟩ := ih' (hs.after hms) (ht _ hjump.keeps.size _ hscope)
    exact ⟨along_append.mpr ⟨hms, hms'⟩, by rwa [after_append]⟩
  | @known f way s _ _ =>
    refine ⟨trivial, fun id hid => ?_⟩
    have hreturned := mem_of_lookup (Option.join_eq_some_iff.mp hid)
    exact hs.returned_known (f.key, some id) hreturned id rfl
  | busy => exact ⟨trivial, known_none⟩
  | @body f way s ms a hn hstack hbody ih =>
    have hm : s.Legal p (.begin f way) := ⟨ht.1, hstack, hn⟩
    obtain ⟨hms, ha⟩ := ih (hs.apply hm) (f.fits_script ht.2)
    have hkeeps := hbody.keeps
    have hend : ((s.apply (.begin f way)).after ms).Legal p (.finish f way a) := by
      refine ⟨congrArg List.head? hkeeps.stack, fun hway => ?_, ha⟩
      have hnew : f.key ∉ s.begun := hn (hway ▸ rfl)
      rw [hkeeps.returned _ (mem_begun_begin.mpr (.inl rfl))]
      refine lookup_eq_none_iff.mpr fun hk => hnew ?_
      obtain ⟨e, he, hek⟩ := List.mem_map.mp hk
      exact hek ▸ hs.returned_begun e he
    refine ⟨⟨hm, along_append.mpr ⟨hms, hend, trivial⟩⟩, ?_⟩
    rw [after_cons, after_append]
    exact ha
  | @asked name s scope hl => exact ⟨trivial, hs.statics_known _ (mem_of_lookup hl)⟩
  | undeclared => exact ⟨trivial, known_none⟩
  | @value name d s ms a hl hd hbody ih =>
    have hm : s.Legal p (.enter name) := legal_enter hl hd
    obtain ⟨hms, ha⟩ := ih (hs.apply hm) d.fits_script
    have hend : ((s.apply (.enter name)).after ms).Legal p (.leave name a) :=
      ⟨hbody.keeps.statics _ _ lookup_setKey_self, ha⟩
    refine ⟨⟨hm, along_append.mpr ⟨hms, hend, trivial⟩⟩, ?_⟩
    rw [after_cons, after_append]
    exact ha
  | idle => exact ⟨trivial, known_none⟩
  | @turn j js s ms ms' a _ _ ih ih' =>
    obtain ⟨hj, hjs⟩ := List.forall_mem_cons.mp ht
    obtain ⟨hms, -⟩ := ih (k := 0) hs (hj _)
    obtain ⟨hms', ha⟩ := ih' (k := 0) (hs.after hms) hjs
    exact ⟨along_append.mpr ⟨hms, hms'⟩, by rwa [after_append]⟩

end Replay

end ServiceContract
