import Mathlib.Data.List.Induction
import ShaderGraph.Proofs.Roster

/-!
# Roots that are repeated or gone

Optimizers may drop roots that are repeated or no longer in the graph. What a stage then builds is
the same: a block that is in the graph has been built when its turn comes again, and a block that is
not leaves everything as it is. The blocks that both stages build are those that the roots reach,
and roots that are gone reach none.

* `Graph.distinctRoots_mergeNodes`: what is repeated or gone does not show in a merged list;
* `Emission.buildAll_distinctRoots`, `Emission.reopenDual_congr`: the two places where a pass reads
  a list of blocks.
-/

namespace ShaderGraph

open List ShaderGraph.Graph

/-! ## 1. Lists without repetitions -/

namespace Material

variable {nodes more last : List BlockId} {x : BlockId}

theorem mergeNodes_concat : mergeNodes nodes (more ++ [x]) = pushNew x (mergeNodes nodes more) :=
  foldl_append

theorem mergeNodes_pushNew :
    mergeNodes nodes (pushNew x more) = pushNew x (mergeNodes nodes more) := by
  by_cases old : x ∈ more
  · have known : x ∈ mergeNodes nodes more := mem_mergeNodes.mpr (.inr old)
    rw [pushNew, if_pos old, pushNew, if_pos known]
  · rw [pushNew, if_neg old, mergeNodes_concat]

theorem mergeNodes_assoc :
    mergeNodes nodes (mergeNodes more last) = mergeNodes (mergeNodes nodes more) last := by
  induction last using List.reverseRecOn with
  | nil => rfl
  | append_singleton last x ih => rw [mergeNodes_concat, mergeNodes_pushNew, ih, mergeNodes_concat]

theorem filter_mergeNodes (p : BlockId → Bool) :
    (mergeNodes nodes more).filter p = mergeNodes (nodes.filter p) (more.filter p) := by
  have one : ∀ (x : BlockId) xs, (pushNew x xs).filter p =
      if p x = true then pushNew x (xs.filter p) else xs.filter p := by
    intro x xs
    by_cases old : x ∈ xs <;> by_cases hp : p x = true <;> simp [pushNew, old, hp]
  induction more using List.reverseRecOn with
  | nil => rfl
  | append_singleton more x ih =>
    rw [mergeNodes_concat, one, ih, filter_append, filter_singleton]
    cases p x with
    | true => exact mergeNodes_concat.symm
    | false => rw [cond_false, append_nil, if_neg Bool.false_ne_true]

end Material

/-- `kept` are the first occurrences in `roots` of the blocks of a graph, in order. -/
structure Graph.FirstOccurrences (g : Graph) (roots kept : List BlockId) : Prop where
  mem : ∀ x, x ∈ kept ↔ x ∈ roots ∧ x ∈ g.ids
  order : kept.Pairwise fun x y => roots.idxOf x < roots.idxOf y

namespace Graph

variable {g g' : Graph} {roots : List BlockId} {x : BlockId}

theorem contains_iff : g.contains x = true ↔ x ∈ g.ids := by
  simp [Graph.contains, Graph.ids]

theorem mem_distinctRoots : x ∈ g.distinctRoots roots ↔ x ∈ roots ∧ x ∈ g.ids := by
  rw [distinctRoots, mem_foldl_pushNew, mem_filter, contains_iff, or_iff_right not_mem_nil]

/-- A root is kept if it is in the graph and new. -/
theorem distinctRoots_concat (g : Graph) (roots : List BlockId) (x : BlockId) :
    g.distinctRoots (roots ++ [x]) =
      if x ∈ g.ids ∧ x ∉ roots then g.distinctRoots roots ++ [x] else g.distinctRoots roots := by
  rw [distinctRoots, filter_append, foldl_append, filter_singleton]
  by_cases inside : x ∈ g.ids
  · rw [contains_iff.mpr inside]
    change pushNew x (g.distinctRoots roots) = _
    simp only [pushNew, mem_distinctRoots, inside, and_true, true_and, ite_not]
  · rw [Bool.eq_false_iff.mpr (mt contains_iff.mp inside), if_neg fun h => inside h.1]
    rfl

theorem distinctRoots_congr (same : g'.ids = g.ids) (roots : List BlockId) :
    g'.distinctRoots roots = g.distinctRoots roots := by
  induction roots using List.reverseRecOn with
  | nil => rfl
  | append_singleton roots x ih => rw [distinctRoots_concat, distinctRoots_concat, ih, same]

theorem firstOccurrences_distinctRoots (g : Graph) (roots : List BlockId) :
    g.FirstOccurrences roots (g.distinctRoots roots) := by
  refine ⟨fun x => mem_distinctRoots, ?_⟩
  induction roots using List.reverseRecOn with
  | nil => exact .nil
  | append_singleton roots x ih =>
    have older : (g.distinctRoots roots).Pairwise fun y z =>
        (roots ++ [x]).idxOf y < (roots ++ [x]).idxOf z := by
      refine ih.imp_of_mem fun {y z} hy hz before => ?_
      rwa [idxOf_append_of_mem (mem_distinctRoots.mp hy).1,
        idxOf_append_of_mem (mem_distinctRoots.mp hz).1]
    rw [distinctRoots_concat]
    split
    · rename_i new
      refine pairwise_append.mpr ⟨older, pairwise_singleton _ _, fun y hy z hz => ?_⟩
      obtain rfl := mem_singleton.mp hz
      have hy := (mem_distinctRoots.mp hy).1
      rw [idxOf_append_of_mem hy, idxOf_append_of_notMem new.2]
      have := idxOf_lt_length_of_mem hy
      omega
    · exact older

/-- Only the first occurrences of a merged list count. -/
theorem distinctRoots_mergeNodes (g : Graph) (roots more : List BlockId) :
    g.distinctRoots (Material.mergeNodes roots more) =
      Material.mergeNodes (g.distinctRoots roots) (more.filter g.contains) := by
  change Material.mergeNodes [] ((Material.mergeNodes roots more).filter g.contains) = _
  rw [Material.filter_mergeNodes, Material.mergeNodes_assoc]
  rfl

theorem distinctRoots_idem (g : Graph) (roots : List BlockId) :
    g.distinctRoots (g.distinctRoots roots) = g.distinctRoots roots := by
  have again := g.distinctRoots_mergeNodes [] (roots.filter g.contains)
  simp only [filter_filter, Bool.and_self] at again
  exact again

end Graph

/-! ## 2. What a build leaves -/

namespace Emission

variable {e e' : Emission} {stage : Stage} {x : BlockId} {nodes nodes' : List BlockId} {steps : Nat}

/-- Blocks stay in the graph, and what was built stays built. -/
structure Onward (e e' : Emission) : Prop where
  ids : e'.graph.ids = e.graph.ids
  built : e.built ⊆ e'.built

theorem across_onward : Across Onward where
  refl _ := ⟨rfl, Subset.refl _⟩
  trans h h' := ⟨h'.ids.trans h.ids, Subset.trans h.built h'.built⟩
  report _ _ := ⟨rfl, Subset.refl _⟩
  name e block := by
    rw [nameBlock]
    split
    · exact ⟨rfl, Subset.refl _⟩
    · exact ⟨ids_modify _ _ _ (by intro; rfl), Subset.refl _⟩
  carry h := ⟨congrArg ids h.graph, h.built ▸ Subset.refl _⟩
  enforce _ _ _ _ := ⟨ids_modify _ _ _ (by intro; rfl), Subset.refl _⟩
  call h := by
    obtain ⟨_, _, _, -, -, hgraph, -, -, hbuilt, -⟩ := call_eq_ok h
    exact ⟨hgraph ▸ ids_modify _ _ _ (by intro; rfl), hbuilt ▸ subset_cons_self _ _⟩

/-- A block of the graph is built after its build, if a step is left for it. -/
theorem mem_built_of_build (h : build stage (steps + 1) x e = .ok e') (inside : x ∈ e.graph.ids) :
    x ∈ e'.built := by
  obtain ⟨block, hb⟩ := mem_ids_iff.mp inside
  simp only [build, hb] at h
  split at h
  · rename_i hbuilt
    cases h
    exact contains_iff_mem.mp hbuilt
  · obtain ⟨e₁, -, h⟩ := bind_eq_ok_iff.mp h
    obtain ⟨⟨slots, e₂⟩, -, h⟩ := bind_eq_ok_iff.mp h
    split at h
    · rename_i hbuilt
      cases h
      exact contains_iff_mem.mp hbuilt
    · obtain ⟨_, _, _, -, -, -, -, -, hbuilt, -⟩ := call_eq_ok (orHalt_eq_ok_iff.mp h)
      exact hbuilt ▸ mem_cons_self

/-- A block that is gone, or built, is passed over. -/
theorem build_of_done (h : x ∉ e.graph.ids ∨ x ∈ e.built) : build stage steps x e = .ok e := by
  cases steps with
  | zero => rfl
  | succ steps =>
    rw [build]
    split
    · rfl
    · rename_i b hb
      rcases h with gone | hbuilt
      · exact absurd (mem_ids_iff.mpr ⟨b, hb⟩) gone
      · rw [if_pos (by simpa using hbuilt)]

theorem buildAll_concat (stage : Stage) (nodes : List BlockId) (x : BlockId) (e : Emission) :
    e.buildAll stage (nodes ++ [x]) =
      e.buildAll stage nodes >>= fun e => build stage (e.graph.blocks.length + 1) x e := by
  rw [buildAll, foldlM_append]
  refine congrArg _ (funext fun e => ?_)
  exact bind_pure _

theorem mem_built_of_buildAll (h : e.buildAll stage nodes = .ok e') (hx : x ∈ nodes)
    (inside : x ∈ e.graph.ids) : x ∈ e'.built := by
  induction nodes generalizing e with
  | nil => cases hx
  | cons y rest ih =>
    obtain ⟨e₁, first, others⟩ := bind_eq_ok_iff.mp h
    rcases mem_cons.mp hx with rfl | hx
    · exact ((across_onward.buildAll rest e₁).of_ok others).built (mem_built_of_build first inside)
    · exact ih others hx (((across_onward.build _ y e).of_ok first).ids ▸ inside)

/-- A stage does not need roots that are repeated or gone. -/
theorem buildAll_distinctRoots (stage : Stage) (nodes : List BlockId) (e : Emission) :
    e.buildAll stage (e.graph.distinctRoots nodes) = e.buildAll stage nodes := by
  induction nodes using List.reverseRecOn with
  | nil => rfl
  | append_singleton nodes x ih =>
    rw [buildAll_concat, distinctRoots_concat]
    split
    · rw [buildAll_concat, ih]
    · rename_i old
      rw [ih]
      cases first : e.buildAll stage nodes with
      | error fault => rfl
      | ok e₁ =>
        refine (build_of_done ?_).symm
        by_cases inside : x ∈ e.graph.ids
        · have listed : x ∈ nodes := not_not.mp fun new => old ⟨inside, new⟩
          exact .inr (mem_built_of_buildAll first listed inside)
        · exact .inl (((across_onward.buildAll nodes e).of_ok first).ids ▸ inside)

theorem buildAll_congr (same : e.graph.distinctRoots nodes = e.graph.distinctRoots nodes') :
    e.buildAll stage nodes = e.buildAll stage nodes' := by
  rw [← buildAll_distinctRoots, same, buildAll_distinctRoots]

/-! ## 3. The blocks of both stages -/

/-- A root that is gone reaches nothing. -/
theorem mem_gather_distinctRoots {g : Graph} {roots : List BlockId} :
    x ∈ g.gather (g.distinctRoots roots) ↔ x ∈ g.gather roots := by
  rw [mem_gather_iff, mem_gather_iff]
  refine and_congr_right fun inside => exists_congr fun n => ?_
  rw [mem_distinctRoots, and_assoc]
  refine and_congr_right fun _ => and_iff_right_of_imp fun path => ?_
  rcases path.cases_head with rfl | ⟨y, step, -⟩
  · exact inside
  · exact step.mem_ids

theorem reopenDual_congr (same : e.graph.distinctRoots nodes = e.graph.distinctRoots nodes') :
    e.reopenDual nodes = e.reopenDual nodes' := by
  have reached : ∀ x, (e.graph.gather nodes).contains x = (e.graph.gather nodes').contains x := by
    intro x
    rw [Bool.eq_iff_iff, contains_iff_mem, contains_iff_mem, ← mem_gather_distinctRoots,
      same, mem_gather_distinctRoots]
  simp only [reopenDual, isDual, reached]

/-- A pass reads its lists of blocks up to repetitions and blocks that are gone. -/
theorem run_congr {vertex vertex' fragment fragment' : List BlockId}
    (hvertex : e.graph.distinctRoots vertex = e.graph.distinctRoots vertex')
    (hfragment : e.graph.distinctRoots fragment = e.graph.distinctRoots fragment') :
    e.run vertex fragment = e.run vertex' fragment' := by
  rw [run, run, buildAll_congr hvertex]
  cases first : e.buildAll .vertex vertex' with
  | error fault => rfl
  | ok e₁ =>
    have ids : e₁.graph.ids = e.graph.ids := ((across_onward.buildAll vertex' e).of_ok first).ids
    have same : e₁.graph.distinctRoots fragment = e₁.graph.distinctRoots fragment' := by
      rw [distinctRoots_congr ids, hfragment, distinctRoots_congr ids]
    have reopened : e₁.shareDeclarations.reopenDual fragment =
        e₁.shareDeclarations.reopenDual fragment' := reopenDual_congr same
    change (e₁.shareDeclarations.reopenDual fragment).buildAll .fragment fragment =
      (e₁.shareDeclarations.reopenDual fragment').buildAll .fragment fragment'
    rw [reopened]
    exact buildAll_congr same

end Emission

/-- Deduplication keeps the first occurrences of the roots that are in the graph, in order, and a
second one changes nothing. Whatever the roots are and whatever the walks have found, the pass goes
on to the same drafts and the same ledger, or to the same error. -/
theorem Material.emit_deduplicate (m : Material) (found : Prepared) (roots : Roots) :
    let g := found.state.graph
    let distinct := Optimizer.deduplicate.optimize g roots
    g.FirstOccurrences roots.vertex distinct.vertex ∧
      g.FirstOccurrences roots.fragment distinct.fragment ∧
      Optimizer.deduplicate.optimize g distinct = distinct ∧
      m.emit found distinct = m.emit found roots := by
  intro g distinct
  refine ⟨g.firstOccurrences_distinctRoots roots.vertex,
    g.firstOccurrences_distinctRoots roots.fragment, ?_, ?_⟩
  · exact congrArg₂ Roots.mk (g.distinctRoots_idem _) (g.distinctRoots_idem _)
  · refine Emission.run_congr ?_ ?_
    · calc g.distinctRoots (mergeNodes (g.distinctRoots roots.vertex) found.fromFragment)
          = mergeNodes (g.distinctRoots roots.vertex) (found.fromFragment.filter g.contains) := by
            rw [g.distinctRoots_mergeNodes, g.distinctRoots_idem]
        _ = g.distinctRoots (mergeNodes roots.vertex found.fromFragment) :=
            (g.distinctRoots_mergeNodes _ _).symm
    · have known : (g.distinctRoots roots.fragment).filter g.contains =
          g.distinctRoots roots.fragment :=
        filter_eq_self.mpr fun x hx => contains_iff.mpr (mem_distinctRoots.mp hx).2
      calc g.distinctRoots (mergeNodes found.fromVertex (g.distinctRoots roots.fragment))
          = mergeNodes (g.distinctRoots found.fromVertex) (g.distinctRoots roots.fragment) := by
            rw [g.distinctRoots_mergeNodes, known]
        _ = mergeNodes (g.distinctRoots found.fromVertex) (roots.fragment.filter g.contains) :=
            mergeNodes_assoc
        _ = g.distinctRoots (mergeNodes found.fromVertex roots.fragment) :=
            (g.distinctRoots_mergeNodes _ _).symm

end ShaderGraph
