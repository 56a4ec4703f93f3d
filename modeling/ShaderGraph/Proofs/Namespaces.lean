import ShaderGraph.Program.Resources
import ShaderGraph.Proofs.Schedule

/-!
# One namespace of declarations

Uniforms and constants are declared once for both stages: what the vertex stage declared is copied
to the fragment stage before that stage is written, and the fragment stage only adds behind it.
While it does, nothing is declared in the vertex stage but attributes, which in turn the fragment
stage never declares (`Emission.Sharing`). Hence the result of a build lists the uniforms of the
vertex stage first among those of the fragment stage, and the declarations of the two together are
those of the fragment stage (`Material.build_shares_declarations`).
-/

namespace ShaderGraph

open List

/-! ## 1. Lists of declarations -/

section Declare

variable {α : Type} {nameOf : α → String} {decls more : List α}

theorem declare_of_mem {decl : α} (h : decl ∈ decls) : declare nameOf decl decls = decls :=
  if_pos (any_eq_true.mpr ⟨decl, h, beq_self_eq_true (nameOf decl)⟩)

theorem foldl_declare_of_subset (h : more ⊆ decls) :
    more.foldl (fun ds d => declare nameOf d ds) decls = decls := by
  induction more with
  | nil => rfl
  | cons d more ih =>
    rw [cons_subset] at h
    rw [foldl_cons, declare_of_mem h.1]
    exact ih h.2

theorem foldl_declare_of_distinct (h : ((decls ++ more).map nameOf).Nodup) :
    more.foldl (fun ds d => declare nameOf d ds) decls = decls ++ more := by
  induction more generalizing decls with
  | nil => exact (append_nil decls).symm
  | cons d more ih =>
    rw [append_cons] at h
    have fresh : ¬(decls.any fun x => nameOf x == nameOf d) = true := by
      intro found
      obtain ⟨x, hx, same⟩ := any_eq_true.mp found
      rw [map_append, map_append, append_assoc, nodup_append] at h
      refine h.2.2 _ (mem_map_of_mem hx) (nameOf d) (by simp) ?_
      exact beq_iff_eq.mp same
    rw [foldl_cons, declare, if_neg fresh, ih h, ← append_cons]

end Declare

namespace Resources

theorem foldl_of_keeps {α β : Type} {p : Resources → β} {f : Resources → α → Resources}
    (keeps : ∀ r x, p (f r x) = p r) (xs : List α) (r : Resources) :
    p (xs.foldl f r) = p r := by
  induction xs generalizing r with
  | nil => rfl
  | cons x xs ih => exact (ih _).trans (keeps r x)

theorem uniforms_foldl_addUniform (us : List UniformDecl) (r : Resources) :
    (us.foldl addUniform r).uniforms =
      us.foldl (fun ds d => declare UniformDecl.name d ds) r.uniforms :=
  (foldl_hom uniforms fun _ _ => rfl).symm

theorem uniforms_merge (vertex fragment : CompiledStage) :
    (merge vertex fragment).uniforms =
      (vertex.uniforms ++ fragment.uniforms).foldl (fun ds d => declare UniformDecl.name d ds)
        [] := by
  have attributes := foldl_of_keeps (p := uniforms) (f := addAttribute) fun _ _ => rfl
  have samplers := foldl_of_keeps (p := uniforms) (f := addSampler) fun _ _ => rfl
  unfold merge
  rw [attributes, samplers, uniforms_foldl_addUniform]

/-- Uniforms that come first among others add nothing to them. -/
theorem uniforms_merge_of_ahead {vertex fragment : CompiledStage}
    (ahead : vertex.uniforms <+: fragment.uniforms)
    (distinct : (fragment.uniforms.map UniformDecl.name).Nodup) :
    (merge vertex fragment).uniforms = fragment.uniforms := by
  obtain ⟨rest, heq⟩ := ahead
  have first : vertex.uniforms.foldl (fun ds d => declare UniformDecl.name d ds) [] =
      vertex.uniforms := by
    refine foldl_declare_of_distinct ?_
    rw [← heq, map_append] at distinct
    exact (nodup_append.mp distinct).1
  rw [uniforms_merge, foldl_append, first, ← heq, foldl_append,
    foldl_declare_of_subset (List.Subset.refl _)]
  exact foldl_declare_of_distinct (heq ▸ distinct)

end Resources

/-! ## 2. Both stages -/

namespace Emission

variable {e e' : Emission} {g : Graph} {l : Language} {T : BlockId → Prop}

theorem Step.fragment_of_vertex (hs : Ongoing g l e) (h : Step l .vertex T e e') :
    e'.fragment = e.fragment := by
  rcases h.quiet_or_calling hs with quiet | ⟨_, _, _, _, _, calling⟩
  · exact quiet.fragment
  · exact calling.fragment rfl

/-- While the fragment stage is written, the vertex stage declares attributes at most, and the
fragment stage everything else. -/
theorem Step.declarations_of_fragment (hs : Ongoing g l e)
    (h : Step l .fragment T e e') :
    e'.vertex.uniforms = e.vertex.uniforms ∧ e'.vertex.constants = e.vertex.constants ∧
      e'.fragment.attributes = e.fragment.attributes := by
  rcases h.quiet_or_calling hs with quiet | ⟨_, _, _, _, _, calling⟩
  · rw [quiet.fragment]
    rcases quiet.vertex with same | ⟨-, line, pushed⟩
    · rw [same]
      exact ⟨rfl, rfl, rfl⟩
    · rw [pushed]
      exact ⟨rfl, rfl, rfl⟩
  · rw [calling.attributes rfl]
    rcases calling.vertex rfl with same | ⟨decl, changed⟩
    · rw [same]
      exact ⟨rfl, rfl, rfl⟩
    · rw [changed]
      exact ⟨rfl, rfl, rfl⟩

/-- The fragment stage declares, under distinct names, what the vertex stage does and more behind
it, and no attribute. -/
structure Sharing (e : Emission) : Prop where
  uniforms : e.vertex.uniforms <+: e.fragment.uniforms
  constants : e.vertex.constants <+: e.fragment.constants
  uniformNames : (e.fragment.uniforms.map UniformDecl.name).Nodup
  constantNames : (e.fragment.constants.map NamedText.name).Nodup
  attributes : e.fragment.attributes = []

namespace Sharing

theorem step (hs : Ongoing g l e) (hstep : Step l .fragment T e e')
    (h : Sharing e) : Sharing e' := by
  obtain ⟨uniforms, constants, attributes⟩ := hstep.declarations_of_fragment hs
  have grows : e.fragment.Grows e'.fragment := hstep.draft hs .fragment
  constructor
  case uniforms => exact uniforms ▸ h.uniforms.trans grows.uniforms.ahead
  case constants => exact constants ▸ h.constants.trans grows.constants.ahead
  case uniformNames => exact grows.uniforms.distinct h.uniformNames
  case constantNames => exact grows.constants.distinct h.constantNames
  case attributes => exact attributes.trans h.attributes

/-- Between the stages, a fragment stage without declarations takes over those of the other. -/
theorem start (nodes : List BlockId) (uniformNames : (e.vertex.uniforms.map UniformDecl.name).Nodup)
    (constantNames : (e.vertex.constants.map NamedText.name).Nodup)
    (noUniforms : e.fragment.uniforms = []) (noConstants : e.fragment.constants = [])
    (noAttributes : e.fragment.attributes = []) :
    Sharing (e.shareDeclarations.reopenDual nodes) := by
  have uniforms : (e.shareDeclarations.reopenDual nodes).fragment.uniforms = e.vertex.uniforms := by
    change e.vertex.uniforms.foldl (fun ds d => declare UniformDecl.name d ds)
      e.fragment.uniforms = _
    rw [noUniforms]
    exact foldl_declare_of_distinct uniformNames
  have constants : (e.shareDeclarations.reopenDual nodes).fragment.constants =
      e.vertex.constants := by
    change e.vertex.constants.foldl (fun ds d => declare NamedText.name d ds)
      e.fragment.constants = _
    rw [noConstants]
    exact foldl_declare_of_distinct constantNames
  constructor
  case uniforms => rw [uniforms]; exact prefix_rfl
  case constants => rw [constants]; exact prefix_rfl
  case uniformNames => rw [uniforms]; exact uniformNames
  case constantNames => rw [constants]; exact constantNames
  case attributes => exact noAttributes

end Sharing

/-- An emission that starts without declarations ends with those of both stages shared. -/
theorem run_sharing (hs : Ongoing g l e) {vertexNodes fragmentNodes : List BlockId}
    (empty : ∀ s, (e.draft s).uniforms = [] ∧ (e.draft s).constants = [] ∧
      (e.draft s).attributes = [])
    (h : e.run vertexNodes fragmentNodes = .ok e') : Sharing e' := by
  obtain ⟨e₁, steps₁, steps₂, -⟩ := run_steps hs h
  have grows : e.vertex.Grows e₁.vertex :=
    Steps.lasts (P := fun e₁ => e.vertex.Grows e₁.vertex)
      (fun _ _ hs hstep hgrows => hgrows.trans (hstep.draft hs .vertex)) hs steps₁ (.refl _)
  have untouched : e₁.fragment = e.fragment :=
    Steps.lasts (P := fun e₁ => e₁.fragment = e.fragment)
      (fun _ _ hs hstep same => (hstep.fragment_of_vertex hs).trans same) hs steps₁ rfl
  obtain ⟨noUniforms, noConstants, -⟩ := empty .vertex
  obtain ⟨noUniforms', noConstants', noAttributes⟩ := empty .fragment
  have start : Sharing (e₁.shareDeclarations.reopenDual fragmentNodes) := by
    refine .start fragmentNodes (grows.uniforms.distinct ?_) (grows.constants.distinct ?_)
      (untouched ▸ noUniforms') (untouched ▸ noConstants') (untouched ▸ noAttributes)
    · rw [show e.vertex.uniforms = [] from noUniforms]
      exact nodup_nil
    · rw [show e.vertex.constants = [] from noConstants]
      exact nodup_nil
  exact Steps.lasts (fun _ _ hs hstep hsharing => hsharing.step hs hstep)
    ((steps₁.steady hs).between fragmentNodes) steps₂ start

end Emission

/-! ## 3. Builds -/

namespace Material

variable {m m' : Material} {c : CompiledGraph}

/-- The result of a build declares no uniform and no constant twice in a stage. The declarations of
the vertex stage come first among those of the fragment stage, so that a name has one type in both,
and the program of the two stages has the uniforms of the fragment stage. Attributes are declared in
the vertex stage only. -/
theorem build_shares_declarations (hm : m.Reachable) (h : m.build = (.ok c, m')) :
    (c.vertex.uniforms.map UniformDecl.name).Nodup ∧
      (c.fragment.uniforms.map UniformDecl.name).Nodup ∧
      c.vertex.uniforms <+: c.fragment.uniforms ∧
      (∀ u ∈ c.vertex.uniforms, ∀ v ∈ c.fragment.uniforms, u.name = v.name → u.type = v.type) ∧
      (Resources.merge c.vertex c.fragment).uniforms = c.fragment.uniforms ∧
      c.vertex.constants <+: c.fragment.constants ∧
      (∃ constants : List NamedText, c.fragment.constants = constants.map NamedText.text ∧
        (constants.map NamedText.name).Nodup ∧ ∀ d ∈ constants, ∃ type literal,
          d.text = c.language.declareConst d.name type literal) ∧
      c.fragment.attributes = [] := by
  obtain ⟨-, e, he, hc, -⟩ := build_eq_ok h
  have hg := hm.wellFormed.graph
  have sharing : Emission.Sharing e := Emission.run_sharing (steady_unwritten hg)
    (fun s => by cases s <;> exact ⟨rfl, rfl, rfl⟩) he
  have worded := worded_emission hg he .fragment
  have written : (e.draft .fragment).language = m.options.language :=
    (steady_emission hg he).language .fragment
  obtain ⟨-, -, parts, language, -, -⟩ := finish_eq_ok hc
  obtain ⟨vertexUniforms, vertexConstants, -⟩ := parts .vertex
  obtain ⟨uniforms, constants, attributes⟩ := parts .fragment
  change c.vertex.uniforms = e.vertex.uniforms at vertexUniforms
  change c.fragment.uniforms = e.fragment.uniforms at uniforms
  have ahead : c.vertex.uniforms <+: c.fragment.uniforms := by
    rw [vertexUniforms, uniforms]
    exact sharing.uniforms
  have distinct : (c.fragment.uniforms.map UniformDecl.name).Nodup := by
    rw [uniforms]
    exact sharing.uniformNames
  refine ⟨distinct.sublist (ahead.sublist.map _), distinct, ahead, ?_,
    Resources.uniforms_merge_of_ahead ahead distinct, ?_, ⟨e.fragment.constants, constants,
      sharing.constantNames, fun d hd => ?_⟩, attributes.trans sharing.attributes⟩
  · intro u hu v hv same
    rw [List.inj_on_of_nodup_map distinct (ahead.subset hu) hv same]
  · change c.vertex.constants = _ at vertexConstants
    change c.fragment.constants = _ at constants
    rw [vertexConstants, constants]
    exact sharing.constants.map _
  · rw [language]
    exact written ▸ worded d hd

/-- Both stages read the position of the camera, which is one uniform. -/
theorem camera_shares_declarations :
    camera.Reachable ∧ ∃ c m', camera.build = (.ok c, m') ∧
      c.vertex.uniforms = [⟨"u_cameraPosition", .value .vector3⟩] ∧
      c.vertex.uniforms <+: c.fragment.uniforms ∧
      (Resources.merge c.vertex c.fragment).uniforms = c.fragment.uniforms := by
  obtain ⟨e, c, he, hc, -, uniforms⟩ := emission_camera
  have pass : camera.runPass.1 = .ok c := runPass_eq_ok (by decide +kernel) he hc
  have build : camera.build = (.ok c, camera.runPass.2) := Prod.ext pass rfl
  obtain ⟨-, -, ahead, -, merged, -⟩ := build_shares_declarations reachable_camera build
  exact ⟨reachable_camera, c, _, build, uniforms, ahead, merged⟩

end Material

end ShaderGraph
