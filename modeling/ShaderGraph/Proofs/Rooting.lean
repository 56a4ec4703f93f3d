import ShaderGraph.Proofs.Coverage
import ShaderGraph.Proofs.Logs

/-!
# Roots and the stages that build what is behind them

A root is a root of all stages of its class and of no other (`Material.Reachable.anchored`). Two
results about builds follow. A block without outputs is built for the stages of its class only
(`Material.target_of_calledIn`). And if a fog is built for the fragment stage, some fog was built
for the vertex stage (`Material.exists_fogCall`), unless an optimizer drops a root of the vertex
stage that has a fog behind it.
-/

namespace ShaderGraph

open Relation List ShaderGraph.Graph Option Block Emission Preparation

/-! ## 1. Roots -/

namespace Material

variable {m m' : Material} {c : CompiledGraph} {e : Emission} {x y : BlockId} {b : Block}

/-- A root is a root of its stages also in the graph that comes of the walks. -/
theorem Anchored.prepared (hm : m.Anchored) (hg : m.graph.Proper) {stage : Stage}
    (hx : x ∈ m.roots.of stage) (hb : m.prepare.state.graph.get? x = some b)
    (input : b.kind.isInput = false) (s : Stage) :
    x ∈ m.roots.of s ↔ b.target.includes s = true := by
  obtain ⟨b₀, hb₀, same⟩ := (extends_prepare hg).1.back hb input
  obtain ⟨b₁, hb₁, staged⟩ := hm x stage hx
  cases hb₀.symm.trans hb₁
  rw [target_of_shape same]
  exact staged ((isInput_of_shape same).symm.trans input) s

end Material

/-! ## 2. Blocks without outputs -/

/-- Nothing reads from a block that has no outputs, unless it is the entry of a teleport. -/
theorem Graph.Regular.not_upstream {g : Graph} (hg : g.Regular) (entered : g.Entered)
    {x y : BlockId} {b : Block} (hb : g.get? y = some b) (bare : b.kind.outputs = [])
    (entry : b.kind.isTeleportIn = false) : ¬g.Upstream x y := by
  rintro (⟨i, s, hs, rfl⟩ | he)
  · obtain ⟨o, ho, -⟩ := hg.coherent.exists_output hs
    obtain ⟨p, hp, hpo⟩ := output?_eq_some_iff.mp ho
    cases hb.symm.trans hp
    have none : b.outputs = [] := by
      have names := (hg.fitted _ b hb).outputs
      rw [bare] at names
      exact map_eq_nil_iff.mp names
    rw [none] at hpo
    cases hpo
  · obtain ⟨p, hp, hin⟩ := isEntry_iff.mp (entered.isEntry he.1 he.2)
    cases hb.symm.trans hp
    rw [entry] at hin
    cases hin

namespace Material

open Emission (CalledIn Complete)

variable {m m' : Material} {c : CompiledGraph} {e : Emission} {x y : BlockId} {b : Block}

theorem emission_complete (hm : m.WellFormed) (he : m.emission = .ok e) :
    Complete m.prepare.state.graph (mergeNodes m.keptRoots.vertex m.prepare.fromFragment)
      (mergeNodes m.prepare.fromVertex m.keptRoots.fragment) e :=
  run_complete (steady_unwritten hm.graph) rfl rfl
    (m.emission_eq_run ▸ he)

/-- In a pass without problems the required inputs of a block that was called are linked. -/
theorem emission_linked (hm : m.Reachable) (hf : m.prepare.state.fault = none)
    (he : m.emission = .ok e) (clean : e.ledger.errors = []) {q : BuildCall} (hq : q ∈ e.calls)
    (hb : e.graph.get? q.block = some b) {i : Nat} {spec : SocketSpec}
    (hspec : b.kind.inputs[i]? = some spec) (required : spec.optional = false) :
    ∃ (p : InputSocket) (s : SocketRef), b.inputs[i]? = some p ∧ p.spec = spec ∧
      p.link = some s := by
  have hw := hm.wellFormed
  have hs := steady_emission hw.graph he
  rw [← (hs.regular.fitted _ b hb).inputs, getElem?_map] at hspec
  obtain ⟨p, hp, rfl⟩ := map_eq_some_iff.mp hspec
  obtain ⟨b₀, hb₀, same⟩ := exists_get?_of_outlines hs.outlines.symm hb
  obtain ⟨p₀, hp₀, spec₀, link₀⟩ := input_of_outline same hp
  obtain ⟨s, hl⟩ := (emission_reporting hw hm.planted hf he).exists_link clean hq hb₀ hp₀
    (spec₀ ▸ required)
  exact ⟨p, s, hp, rfl, link₀ ▸ hl⟩

/-- A block without outputs is built for the stages that it belongs to. -/
theorem target_of_calledIn (hm : m.Reachable) (hf : m.prepare.state.fault = none)
    (he : m.emission = .ok e) {stage : Stage} (called : CalledIn stage e x)
    (hb : m.prepare.state.graph.get? x = some b) (bare : b.kind.outputs = [])
    (entry : b.kind.isTeleportIn = false) (input : b.kind.isInput = false) :
    b.target.includes stage = true := by
  have hg := regular_prepare hm.wellFormed.graph
  have entered := (extends_prepare hm.wellFormed.graph).1.entered hm.entered
  have complete := emission_complete hm.wellFormed he
  obtain ⟨vertexRoots, fragmentRoots⟩ :=
    Optimizer.modest_foldl hm.wellFormed.modest m.prepare.state.graph m.roots
  obtain ⟨S, scope⟩ := exists_scope hm.wellFormed.graph hf
  have here : x ∈ m.prepare.state.graph.ids := Graph.mem_ids_iff.mpr ⟨b, hb⟩
  have alone : ∀ {nodes}, x ∈ m.prepare.state.graph.gather nodes → x ∈ nodes := by
    intro nodes hx
    obtain ⟨-, n, hn, path⟩ := Graph.mem_gather_iff.mp hx
    rcases ReflTransGen.cases_tail path with rfl | ⟨z, -, last⟩
    · exact hn
    · exact absurd last (hg.not_upstream entered hb bare entry)
  cases stage with
  | vertex =>
    rcases mem_mergeNodes.mp (alone (complete.within x called)) with hx | hx
    · have root : x ∈ m.roots.of .vertex := (vertexRoots x hx).resolve_right fun away => away here
      exact (hm.anchored.prepared hm.wellFormed.graph root hb input .vertex).mp root
    · obtain ⟨-, b', hb', target⟩ := scope.fromFragment x hx
      cases hb.symm.trans hb'
      rcases target with target | target <;> rw [target] <;> rfl
  | fragment =>
    rcases mem_mergeNodes.mp (alone (complete.withinFragment x called)) with hx | hx
    · obtain ⟨-, b', hb', target⟩ := scope.fromVertex x hx
      cases hb.symm.trans hb'
      rw [target]
      rfl
    · have root : x ∈ m.roots.of .fragment :=
        (fragmentRoots x hx).resolve_right fun away => away here
      exact (hm.anchored.prepared hm.wellFormed.graph root hb input .fragment).mp root

end Material

/-! ## 3. Fogs -/

namespace Emission

variable {e : Emission} {g : Graph} {V F : List BlockId} {x y : BlockId} {b : Block}

/-- If a block was built for the vertex stage and a fog is behind it, some fog was built for that
stage: the first one that is met on the way. -/
theorem Complete.exists_fogCall (h : Complete g V F e) (hg : g.Regular)
    (path : ReflTransGen g.Upstream x y) (hb : g.get? y = some b) (hfog : b.kind.isFog = true)
    (called : CalledIn .vertex e x) : ∃ q ∈ e.calls, g.isFogCall q = true := by
  -- the induction is on the way to the fog, from the block that was built
  induction path using ReflTransGen.head_induction_on with
  | refl =>
    obtain ⟨q, hq, rfl, stage⟩ := called
    exact ⟨q, hq, by rw [Graph.isFogCall, stage, hb, any_some, hfog]; rfl⟩
  | @head x z up _ ih =>
    obtain ⟨q, hq, rfl, stage⟩ := called
    obtain ⟨a, ha⟩ := mem_ids_iff.mp up.mem_ids
    cases hfa : a.kind.isFog with
    | true => exact ⟨q, hq, by rw [Graph.isFogCall, stage, ha, any_some, hfa]; rfl⟩
    | false =>
      rcases up with ⟨i, s, hs, rfl⟩ | hentry
      · obtain ⟨p, hp, link⟩ := source?_eq_some_iff.mp hs
        obtain ⟨a', ha', hp⟩ := input?_eq_some_iff.mp hp
        cases ha.symm.trans ha'
        obtain ⟨q', hq', block, same⟩ := h.fed q hq a i p s ha hp link
          (isProcessed_of_not_fog (hg.fitted _ a ha) hfa hp q.stage)
        exact ih ⟨q', hq', block, (same (.inr stage)).trans stage⟩
      · obtain ⟨q', hq', block, same⟩ := h.entered q hq z hentry.1
        exact ih ⟨q', hq', block, same stage⟩

end Emission

namespace Material

open Emission (CalledIn Complete)

variable {m : Material} {e : Emission} {x y : BlockId} {b : Block}

/-- The optimizers keep the roots of the vertex stage that have a fog behind them. -/
def KeepsFogs (m : Material) : Prop :=
  ∀ n ∈ m.roots.vertex, ∀ y b, ReflTransGen m.graph.Upstream n y → m.graph.get? y = some b →
    b.kind.isFog = true → n ∈ m.keptRoots.vertex

/-- What the vertex stage hands to the fragment stage is behind the roots of the vertex stage. -/
theorem exists_root_of_fromVertex (hm : m.Reachable) (hf : m.prepare.state.fault = none)
    (hx : x ∈ m.prepare.fromVertex) :
    ∃ n ∈ m.roots.vertex, ReflTransGen m.prepare.state.graph.Upstream n x := by
  have hg := hm.wellFormed.graph
  obtain ⟨-, clear, covered, -⟩ := prepare_clear hg hf
  obtain ⟨tracks, lists⟩ := tracks_firstWalk hg hm.planted clear
  obtain ⟨S, scope⟩ := exists_scope hg hf
  obtain ⟨-, b, hb, -⟩ := scope.fromVertex x hx
  have met := tracks.met x (covered.crossing x hx).1 (Graph.mem_ids_iff.mpr ⟨b, hb⟩)
  have listed := lists []
  rw [append_nil, Search.preorder, reverse_reverse] at listed
  rw [← listed] at met
  exact (mem_gather_iff.mp met).2

/-- If a fog is built for the fragment stage, a fog was built for the vertex stage. -/
theorem exists_fogCall (hm : m.Reachable) (keeps : m.KeepsFogs) (hf : m.prepare.state.fault = none)
    (he : m.emission = .ok e) (called : CalledIn .fragment e y)
    (hb : m.prepare.state.graph.get? y = some b) (hfog : b.kind.isFog = true) :
    ∃ q ∈ e.calls, m.prepare.state.graph.isFogCall q = true := by
  obtain ⟨extension, -⟩ := extends_prepare hm.wellFormed.graph
  have hg := extension.proper.toRegular
  have complete := emission_complete hm.wellFormed he
  obtain ⟨input, dual⟩ := Kind.isFog_iff.mp hfog
  have here : y ∈ m.prepare.state.graph.ids := Graph.mem_ids_iff.mpr ⟨b, hb⟩
  -- a root of the vertex stage with the fog behind it is kept, and built
  have ofRoot : ∀ {n}, n ∈ m.roots.vertex → ReflTransGen m.prepare.state.graph.Upstream n y →
      ∃ q ∈ e.calls, m.prepare.state.graph.isFogCall q = true := by
    intro n hn path
    obtain ⟨b₀, hb₀, same⟩ := extension.back hb input
    have old : ReflTransGen m.graph.Upstream n y := by
      rcases reflTransGen_iff_eq_or_transGen.mp path with rfl | path
      · exact .refl
      · exact (extension.path_back hb input path).to_reflTransGen
    have kept := keeps n hn y b₀ old hb₀ ((Block.isFog_of_shape same).symm.trans hfog)
    have inside : n ∈ m.prepare.state.graph.ids := by
      rcases ReflTransGen.cases_head path with rfl | ⟨z, first, -⟩
      · exact here
      · exact first.mem_ids
    exact complete.exists_fogCall hg path hb hfog
      (complete.vertex n (mem_mergeNodes.mpr (.inl kept)) inside)
  obtain ⟨-, n, hn, path⟩ := Graph.mem_gather_iff.mp (complete.withinFragment y called)
  rcases mem_mergeNodes.mp hn with hn | hn
  · obtain ⟨r, hr, before⟩ := exists_root_of_fromVertex hm hf hn
    exact ofRoot hr (before.trans path)
  · rcases ReflTransGen.cases_tail path with rfl | ⟨z, start, last⟩
    · -- a fog that is a root is a root of both stages
      have root : y ∈ m.roots.of .fragment :=
        ((Optimizer.modest_foldl hm.wellFormed.modest _ m.roots).2 y hn).resolve_right
          fun away => away here
      refine ofRoot ?_ .refl
      refine (hm.anchored.prepared hm.wellFormed.graph root hb input .vertex).mpr ?_
      rw [show b.target = .vertexAndFragment from dual]
      rfl
    · have inside : n ∈ m.prepare.state.graph.ids := by
        rcases ReflTransGen.cases_head start with rfl | ⟨w, first, -⟩
        · exact last.mem_ids
        · exact first.mem_ids
      have root : n ∈ m.roots.fragment :=
        ((Optimizer.modest_foldl hm.wellFormed.modest _ m.roots).2 n hn).resolve_right
          fun away => away inside
      have crossing : y ∈ m.prepare.fromFragment :=
        mem_fromFragment hm.wellFormed.graph hf
          (Graph.mem_gather_iff.mpr ⟨last.mem_ids, n, root, start⟩) last hb dual
      exact complete.exists_fogCall hg .refl hb hfog
        (complete.vertex y (mem_mergeNodes.mpr (.inr crossing)) here)

end Material

end ShaderGraph
