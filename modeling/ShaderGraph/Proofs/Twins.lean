import ShaderGraph.Proofs.Completing
import ShaderGraph.Proofs.Lockstep
import ShaderGraph.Proofs.Retracing

/-!
# Passes with the same result

The pass of a material comes to the same end as the pass of another one, if the graph of the second
mirrors what the walks of the first leave, with the same roots in the same order, and if its blocks
have no wishes left (`Material.Twin`). The two results differ in the identities of blocks only
(`Material.Twin.build`).
-/

namespace ShaderGraph

open List Preparation

variable {f : BlockId → BlockId}

theorem Material.mergeNodes_map (hf : f.Injective) (nodes more : List BlockId) :
    mergeNodes (nodes.map f) (more.map f) = (mergeNodes nodes more).map f := by
  induction more generalizing nodes with
  | nil => rfl
  | cons x rest ih =>
    rw [map_cons, mergeNodes, foldl_cons, ← map_pushNew hf]
    exact ih _

def Roots.relabel (f : BlockId → BlockId) (r : Roots) : Roots :=
  ⟨r.vertex.map f, r.fragment.map f⟩

/-- The result of a pass for blocks of other identities. -/
def CompiledGraph.relabel (f : BlockId → BlockId) (pass : PassId) (c : CompiledGraph) :
    CompiledGraph :=
  { c with pass, roster := c.roster.relabel f }

namespace Material

variable {m n : Material} {x : BlockId} {e : Emission}

def optimized (m : Material) : Roots :=
  m.optimizers.foldl (fun r o => o.optimize m.prepare.state.graph r) m.roots

/-- The walks of a pass take away the leftovers that it reads. -/
theorem fresh_prepare (hg : m.graph.Proper) (hf : m.prepare.state.fault = none)
    (hx : x ∈ m.firstWalk.visited ∨ x ∈ m.prepare.state.visited) :
    m.prepare.state.graph.At Block.Fresh x := by
  obtain ⟨first, -⟩ := walked_firstWalk hg
  obtain ⟨second, clear, -⟩ := prepare_clear hg hf
  rw [second] at hf hx ⊢
  rcases hx with hx | hx
  · exact fresh_of_parts (fun lasting => at_walk lasting _ _)
      (fresh_walk (p := m.unprepared) hg clear x hx)
  · exact fresh_walk first.proper hf x hx

theorem quiet_unprepared (hg : m.graph.Proper) : m.unprepared.Quiet :=
  ⟨hg, (fun _ hx => nomatch hx), fun _ _ hx => nomatch hx⟩

theorem settles_firstWalk (hg : m.graph.Proper) : m.unprepared.Settles m.firstWalk :=
  settles_walk .vertex m.roots.vertex (quiet_unprepared hg)

theorem settles_prepare (hg : m.graph.Proper) : m.firstWalk.Settles m.prepare.state := by
  have first := settles_firstWalk hg
  exact (Preparation.Settles.refl first.quiet).andThen
    (settles_walk .fragment m.roots.fragment first.quiet)

/-- A material whose pass repeats that of another one, with the blocks that `f` gives. -/
structure Twin (f : BlockId → BlockId) (m n : Material) : Prop where
  injective : f.Injective
  proper : n.graph.Proper
  plan : m.prepare.state.graph.bare.Mirrors f (fun _ => True) n.graph.bare
  content : n.options.autoConfigure = true →
    ∀ x ∈ m.prepare.state.prepared, n.graph.Content (f x)
  roots : n.roots = m.roots.relabel f
  mode : n.mode = m.mode
  language : n.options.language = m.options.language
  comments : n.options.comments = m.options.comments

namespace Twin

variable (t : m.Twin f n)
include t

theorem retraces (hg : m.graph.Proper) (planted : m.Planted) :
    Preparation.Retraces f m.prepare.state n.graph m.firstWalk n.firstWalk ∧
      Preparation.Retraces f m.prepare.state n.graph m.prepare.state n.prepare.state := by
  have start : Preparation.Retraces f m.prepare.state n.graph m.unprepared n.unprepared := by
    refine ⟨rfl, ?_, rfl, rfl, rfl, rfl, rfl, t.content, nil_subset _⟩
    simp only [unprepared, newLedger, t.language, t.mode]
    rfl
  have settled := settles_firstWalk hg
  have later := settles_prepare hg
  have vertex : n.roots.vertex = m.roots.vertex.map f := congrArg Roots.vertex t.roots
  have fragment : n.roots.fragment = m.roots.fragment.map f := congrArg Roots.fragment t.roots
  have first : Preparation.Retraces f m.prepare.state n.graph m.firstWalk n.firstWalk := by
    rw [Material.firstWalk, Material.firstWalk, vertex]
    exact start.walk t.plan t.injective t.proper (quiet_unprepared hg) (planted .vertex) later
  refine ⟨first, ?_⟩
  rw [state_prepare, state_prepare, fragment]
  refine first.andThen fun clear => ?_
  have ahead : m.prepare.state = m.firstWalk.walk .fragment m.roots.fragment := by
    rw [state_prepare, Preparation.andThen, if_neg (by simp [clear])]
  refine first.walk t.plan t.injective t.proper settled.quiet
    (fun x hx => settled.mem_ids (planted .fragment x hx)) ?_
  rw [← ahead]
  exact .refl later.quiet

/-- The blocks that the passes look at: those that the walks meet, and what is not there. -/
def Seen (m : Material) (x : BlockId) : Prop :=
  (x ∈ m.firstWalk.visited ∨ x ∈ m.prepare.state.visited) ∨ x ∉ m.prepare.state.graph.ids

theorem unwritten (hg : m.graph.Proper) (planted : m.Planted)
    (clear : m.prepare.state.fault = none) : m.unwritten.Mirrors f (Seen m) n.unwritten := by
  obtain ⟨first, both⟩ := t.retraces hg planted
  have plan : m.prepare.state.graph.bare.Mirrors f (Seen m) n.prepare.state.graph.bare := by
    rw [both.graph]
    refine ⟨fun x _ => t.plan.blocks x trivial, t.plan.length, fun x hx => .inr fun there => hx ?_⟩
    obtain ⟨b, hb⟩ := Graph.mem_ids_iff.mp there
    exact Graph.mem_ids_iff.mpr ⟨b.bare, by rw [Graph.get?_bare, hb]; rfl⟩
  constructor
  case graph =>
    -- the leftovers that matter are gone where the walks have been
    refine plan.of_bare (fun x hx => ?_) fun x hx => ?_
    · rcases hx with met | missing
      · exact fresh_prepare hg clear met
      · exact fun b hb => absurd (Graph.mem_ids_iff.mpr ⟨b, hb⟩) missing
    · rcases hx with met | missing
      · refine fresh_prepare t.proper (both.fault.trans clear) ?_
        rw [first.visited, both.visited]
        exact met.imp (List.mem_map_of_mem) (List.mem_map_of_mem)
      · have absent : n.prepare.state.graph.bare.get? (f x) = none := by
          refine plan.get?_eq_none (.inr missing) ?_
          rw [Graph.get?_bare, Graph.get?_eq_none_iff.mpr missing]
          rfl
        rw [Graph.get?_bare, Option.map_eq_none_iff] at absent
        exact fun b hb => nomatch absent.symm.trans hb
  case vertex => simp only [Material.unwritten, t.language, t.comments]
  case fragment => simp only [Material.unwritten, t.language, t.comments]
  case ledger => exact both.ledger
  case built => rfl
  case within => exact fun x hx => nomatch hx
  case builtIn => exact fun x hx => nomatch hx

theorem emission (hg : m.graph.Proper) (entered : m.graph.Entered) (planted : m.Planted)
    (modest : ∀ o ∈ m.optimizers, o.Modest) (optimized : n.optimized = m.optimized.relabel f)
    (clear : m.prepare.state.fault = none) (he : m.emission = .ok e) :
    ∃ e', n.emission = .ok e' ∧ e.Mirrors f (Seen m) e' := by
  obtain ⟨first, both⟩ := t.retraces hg planted
  have scope := scope_prepare hg clear
  obtain ⟨vertexRoots, fragmentRoots⟩ :=
    Optimizer.modest_foldl modest m.prepare.state.graph m.roots
  have closed : ∀ x y, Seen m x → m.prepare.state.graph.Upstream x y → Seen m y := by
    rintro x y (met | missing) up
    · exact .inl (scope.closed x y met up)
    · exact absurd up.mem_ids missing
  have vertexNodes : ∀ x ∈ mergeNodes m.optimized.vertex m.prepare.fromFragment, Seen m x := by
    intro x hx
    rcases mem_mergeNodes.mp hx with hx | hx
    · exact (vertexRoots x hx).imp_left (scope.vertex x)
    · exact .inl (scope.fromFragment x hx).1
  have fragmentNodes : ∀ x ∈ mergeNodes m.prepare.fromVertex m.optimized.fragment, Seen m x := by
    intro x hx
    rcases mem_mergeNodes.mp hx with hx | hx
    · exact .inl (scope.fromVertex x hx).1
    · exact (fragmentRoots x hx).imp_left (scope.fragment x)
  have supplied : Emission.Supplied m.prepare.state.graph m.unwritten := fun _ _ _ hr => nomatch hr
  obtain ⟨e', ran, mirrors⟩ := Emission.Mirrors.run t.injective closed
    ((extends_prepare hg).1.entered entered) vertexNodes fragmentNodes (steady_unwritten hg)
    supplied
    (t.unwritten hg planted clear) he
  refine ⟨e', ?_, mirrors⟩
  rw [← mergeNodes_map t.injective, ← mergeNodes_map t.injective] at ran
  have fromVertex : n.prepare.fromVertex = m.prepare.fromVertex.map f := first.crossing
  have fromFragment : n.prepare.fromFragment = m.prepare.fromFragment.map f := both.crossing
  rw [← fromVertex, ← fromFragment] at ran
  have nodes : n.emission = n.unwritten.run (mergeNodes n.optimized.vertex n.prepare.fromFragment)
    (mergeNodes n.prepare.fromVertex n.optimized.fragment) := rfl
  rw [nodes, optimized]
  exact ran

omit t in
/-- What the results have in common. -/
theorem finish {S : BlockId → Prop} {e' : Emission}
    (language : n.options.language = m.options.language) (h : e.Mirrors f S e') {c : CompiledGraph}
    (hc : m.finish e = .ok c) : n.finish e' = .ok (c.relabel f n.pass) := by
  obtain ⟨vertex, hv, hc⟩ := bind_eq_ok_iff.mp hc
  obtain ⟨fragment, hf, hc⟩ := bind_eq_ok_iff.mp hc
  cases hc
  unfold Material.finish
  rw [h.vertex, h.fragment, hv, hf, h.ledger, language]
  rfl

/-- If no entry is lost, both come to the same end. -/
theorem build (hg : m.graph.Proper) (entered : m.graph.Entered) (planted : m.Planted)
    (modest : ∀ o ∈ m.optimizers, o.Modest) (optimized : n.optimized = m.optimized.relabel f)
    (emits : m.prepare.state.fault = none → ∃ e, m.emission = .ok e) :
    n.build.1 = m.build.1.map (CompiledGraph.relabel f n.pass.next) := by
  have vertex : n.roots.vertex.isEmpty = m.roots.vertex.isEmpty := by
    rw [t.roots]
    exact isEmpty_map
  have fragment : n.roots.fragment.isEmpty = m.roots.fragment.isEmpty := by
    rw [t.roots]
    exact isEmpty_map
  unfold Material.build
  rw [vertex, fragment, t.mode]
  split
  · rfl
  · split
    · rfl
    · obtain ⟨-, both⟩ := t.retraces hg planted
      -- the walks of both find the same fault or none
      cases hf : m.prepare.state.fault with
      | some fault =>
        rw [runPass_eq, runPass_eq]
        simp only [hf, both.fault, Except.map]
      | none =>
        obtain ⟨e, he⟩ := emits hf
        obtain ⟨c, hc⟩ := exists_finish hg he { m with pass := m.pass.next }
        obtain ⟨e', he', mirrors⟩ := t.emission hg entered planted modest optimized hf he
        have hc' : Material.finish { n with pass := n.pass.next } e' =
            .ok (c.relabel f n.pass.next) :=
          finish (m := { m with pass := m.pass.next }) (n := { n with pass := n.pass.next })
            t.language mirrors hc
        rw [runPass_eq_ok hf he hc, runPass_eq_ok (both.fault.trans hf) he' hc']
        rfl

end Twin

end Material

end ShaderGraph
