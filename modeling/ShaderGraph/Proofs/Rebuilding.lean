import ShaderGraph.Proofs.Twins

/-!
# Building again

A material that was built is built again at once. The first pass fulfilled the wishes of the blocks
that it met, so that the second one finds nothing to add; it gives the same names in the same order,
since it takes away what the first one left before it reads it. The two results differ in the number
of the pass only (`Material.rebuild`).

An optimizer sees the graph of its pass. It can read what is left over from the first pass, which
the second pass has and the first has not, and then the results differ
(`Material.rebuild_can_differ`). Optimizers that do not read it are `Optimizer.Forgetful`.
-/

namespace ShaderGraph

open List ShaderGraph.Graph Kind Optimizer

/-! ## 1. Optimizers -/

/-- An optimizer that looks at blocks, links and settings, and not at what passes left. -/
def Optimizer.Forgetful (o : Optimizer) : Prop :=
  ∀ g g' r, g'.bare = g.bare → o.optimize g' r = o.optimize g r

theorem Optimizer.forgetful_foldl {optimizers : List Optimizer}
    (h : ∀ o ∈ optimizers, o.Forgetful) {g g' : Graph} (same : g'.bare = g.bare) (r : Roots) :
    optimizers.foldl (fun r o => o.optimize g' r) r =
      optimizers.foldl (fun r o => o.optimize g r) r := by
  induction optimizers generalizing r with
  | nil => rfl
  | cons o rest ih =>
    rw [forall_mem_cons] at h
    rw [foldl_cons, foldl_cons, h.1 g g' r same]
    exact ih h.2 _

theorem Optimizer.forgetful_deduplicate : Optimizer.deduplicate.Forgetful := by
  intro g g' r same
  have view : ∀ g : Graph, g.contains = g.bare.contains := by
    intro g
    funext x
    simp only [Graph.contains, Graph.bare, any_map]
    rfl
  have contains : g'.contains = g.contains := by rw [view g', same, ← view g]
  simp only [deduplicate, Graph.distinctRoots, contains]

/-- Blocks of a class that must not be repeated are not input blocks. -/
theorem Kind.isInput_of_className {k k' : Kind} (h : k.className = k'.className)
    (unique : k'.isUnique = true) : k.isInput = false := by
  cases k with
  | input b =>
    have other : k'.className ≠ "InputBlock" := by
      cases k' with
      | morphTargets => show "MorphTargetsBlock" ≠ "InputBlock"; decide
      | bones => show "BonesBlock" ≠ "InputBlock"; decide
      | _ => cases unique
    exact absurd h.symm other
  | _ => rfl

namespace Material

variable {m m' : Material} {c : CompiledGraph}

/-! ## 2. Two passes in a row -/

theorem build_keeps (h : m.build = (.ok c, m')) :
    m'.options = m.options ∧ m'.mode = m.mode ∧ m'.roots = m.roots ∧
      m'.optimizers = m.optimizers ∧ m'.pass = m.pass.next ∧ c.pass = m.pass.next := by
  have hrun := runPass_of_build h
  obtain ⟨clear, e, he, hc, -⟩ := build_eq_ok h
  have pass : c.pass = m.pass.next := by
    obtain ⟨_, -, hc⟩ := bind_eq_ok_iff.mp hc
    obtain ⟨_, -, hc⟩ := bind_eq_ok_iff.mp hc
    rw [← Except.ok.inj hc]
  rw [runPass_eq] at hrun
  simp only [clear, he] at hrun
  split at hrun
  · cases hrun
  · cases hrun
    exact ⟨rfl, rfl, rfl, rfl, rfl, pass⟩

theorem bare_emission (hg : m.graph.Proper) {e : Emission} (he : m.emission = .ok e) :
    e.graph.bare = m.prepare.state.graph.bare :=
  Emission.bare_run (steady_unwritten hg) he

/-- The second pass repeats the first one. -/
theorem twin_of_build (hg : m.graph.Proper) (h : m.build = (.ok c, m')) : m.Twin id m' := by
  obtain ⟨options, mode, roots, -⟩ := build_keeps h
  obtain ⟨-, e, he, -, graph⟩ := build_eq_ok h
  have bare : m'.graph.bare = m.prepare.state.graph.bare := graph ▸ bare_emission hg he
  have quiet := (settles_prepare hg).quiet
  have auto : m.prepare.state.autoConfigure = m.options.autoConfigure :=
    (settles_prepare hg).auto.trans (settles_firstWalk hg).auto
  constructor
  case injective => exact Function.injective_id
  case proper =>
    exact quiet.proper.of_outlines (outlines_of_bare bare) (nextId_of_bare bare).ge
  case plan => exact .of_bare_eq bare
  case content =>
    intro on x hx
    rw [options, ← auto] at on
    exact (quiet.content on x hx).grown (quiet.met x hx) (.of_bare bare)
  case roots => rw [roots, Roots.relabel, map_id, map_id]
  case mode => exact mode
  case language => rw [options]
  case comments => rw [options]

/-- A pass that finds nothing to add leaves the graph as it is, but for leftovers. -/
theorem bare_build (hg : m.graph.Proper) (still : m.prepare.state.graph.bare = m.graph.bare)
    (h : m.build = (.ok c, m')) : m'.graph.bare = m.graph.bare := by
  obtain ⟨-, e, he, -, graph⟩ := build_eq_ok h
  rw [graph, bare_emission hg he, still]

/-- Building a material again gives the same result. -/
theorem rebuild (hm : m.Reachable) (forgetful : ∀ o ∈ m.optimizers, o.Forgetful)
    (h : m.build = (.ok c, m')) :
    ∃ m'', m'.build = (.ok { c with pass := c.pass.next }, m'') ∧
      m''.graph.bare = m'.graph.bare ∧ m''.graph.ids = m'.graph.ids ∧
      ∀ r, m''.graph.source? r = m'.graph.source? r := by
  have hw := hm.wellFormed
  obtain ⟨-, -, roots, optimizers, pass, number⟩ := build_keeps h
  have twin := twin_of_build hw.graph h
  obtain ⟨-, both⟩ := twin.retraces hw.graph hm.planted
  have still : m'.prepare.state.graph.bare = m'.graph.bare := both.graph
  obtain ⟨-, e, he, -, graph⟩ := build_eq_ok h
  have optimized : m'.optimized = m.optimized.relabel id := by
    have bare : m'.prepare.state.graph.bare = m.prepare.state.graph.bare := by
      rw [still, graph, bare_emission hw.graph he]
    rw [Material.optimized, Material.optimized, optimizers, roots,
      Optimizer.forgetful_foldl forgetful bare, Roots.relabel, List.map_id, List.map_id]
  have result := twin.build hw.graph hm.entered hm.planted hw.modest optimized fun _ => ⟨e, he⟩
  have same : CompiledGraph.relabel id m'.pass.next c = { c with pass := c.pass.next } := by
    rw [CompiledGraph.relabel, pass, ← number]
    simp [Roster.relabel]
  rw [h, Except.map, same] at result
  have again : m'.build = (.ok { c with pass := c.pass.next }, m'.build.2) := Prod.ext result rfl
  have bare := bare_build twin.proper still again
  have outlines := Graph.outlines_of_bare bare
  exact ⟨m'.build.2, again, bare, Graph.ids_of_outlines outlines,
    Graph.source?_of_outlines outlines⟩

/-! ## 3. A material with wishes -/

/-- A pass without repeated unique blocks has no fault, whatever it adds. -/
theorem clear_prepare (hg : m.graph.Proper) (planted : m.Planted)
    (unrepeated : ∀ a ∈ m.graph.blocks, ∀ b ∈ m.graph.blocks, a.className = b.className →
      b.kind.isUnique = true → a.id = b.id) :
    m.prepare.state.fault = none := by
  cases hf : m.prepare.state.fault with
  | none => rfl
  | some fault =>
    obtain ⟨x, y, a, b, -, -, apart, ha, hb, same, unique, -⟩ :=
      (orderly_prepare hg planted).2.blames fault hf
    have grown := ((settles_firstWalk hg).trans (settles_prepare hg)).grown
    -- what is added are input blocks, and these may be repeated
    have old : ∀ {x c}, m.prepare.state.graph.get? x = some c → c.kind.isInput = false →
        ∃ c₀, m.graph.get? x = some c₀ ∧ c.kind.bare = c₀.kind.bare := by
      intro x c hc leaf
      obtain ⟨c₀, hc₀, -⟩ := (extends_prepare hg).1.back hc leaf
      obtain ⟨c', hc', stem⟩ := exists_get?_of_stems grown.stems hc₀
      cases hc.symm.trans hc'
      exact ⟨c₀, hc₀, Block.bare_kind_of_stem stem⟩
    obtain ⟨a₀, ha₀, sameA⟩ := old ha (isInput_of_className same unique)
    obtain ⟨b₀, hb₀, sameB⟩ := old hb (isInput_of_className rfl unique)
    refine absurd ?_ apart
    rw [← id_of_get? ha₀, ← id_of_get? hb₀]
    refine unrepeated a₀ (mem_of_get? ha₀) b₀ (mem_of_get? hb₀) ?_ ?_
    · rw [Block.className, ← className_bare, ← sameA, className_bare, Block.className,
        ← b₀.kind.className_bare, ← sameB, className_bare]
      exact same
    · rwa [← isUnique_bare, ← sameB, isUnique_bare]

/-- A material that has its roots, repeats no unique block and has lost no entry is built. -/
theorem exists_build_of_unrepeated (hm : m.Reachable) (fragment : m.roots.fragment ≠ [])
    (vertex : m.roots.vertex = [] → m.mode.allowsEmptyVertex = true)
    (unrepeated : ∀ a ∈ m.graph.blocks, ∀ b ∈ m.graph.blocks, a.className = b.className →
      b.kind.isUnique = true → a.id = b.id)
    (there : ∀ x, ¬m.Lost x) : ∃ c m', m.build = (.ok c, m') := by
  have hg := hm.wellFormed.graph
  have clear := clear_prepare hg hm.planted unrepeated
  obtain ⟨e, he⟩ := exists_emission hm.wellFormed hm.planted clear there
  obtain ⟨c, hc⟩ := exists_finish hg he { m with pass := m.pass.next }
  refine ⟨c, m.build.2, Prod.ext ?_ rfl⟩
  unfold build
  rw [if_neg (by simpa using fragment), if_neg (by simpa using vertex)]
  exact runPass_eq_ok clear he hc

/-- The particle with bones, which wish for two attributes and for the world matrix. -/
def unskinned : Material := { tint.addBlock "bones" (.bones {}) with roots := ⟨[⟨3⟩], [⟨2⟩]⟩ }

def skinned : Material := { unskinned with optimizers := [.deduplicate] }

theorem reachable_skinned : skinned.Reachable := by
  have rooted : unskinned.Reachable :=
    .addRoot (.addBlock "bones" (.bones {}) reachable_tint nofun)
      (show addRoot _ ⟨3⟩ = .ok unskinned from rfl)
  exact .addOptimizer .deduplicate rooted modest_deduplicate

theorem forgetful_skinned : ∀ o ∈ skinned.optimizers, o.Forgetful := by
  intro o ho
  obtain rfl := mem_singleton.mp ho
  exact forgetful_deduplicate

theorem skinned_rebuild :
    skinned.Reachable ∧ (∀ o ∈ skinned.optimizers, o.Forgetful) ∧
      skinned.options.autoConfigure = true ∧
      ∃ c m', skinned.build = (.ok c, m') ∧
        ∃ m'', m'.build = (.ok { c with pass := c.pass.next }, m'') ∧
          m''.graph.bare = m'.graph.bare ∧ m''.graph.ids = m'.graph.ids ∧
          ∀ r, m''.graph.source? r = m'.graph.source? r := by
  obtain ⟨c, m', h⟩ := exists_build_of_unrepeated reachable_skinned (by decide) (by decide)
    (by decide) (not_lost_of_free (by decide))
  exact ⟨reachable_skinned, forgetful_skinned, rfl, c, m', h,
    rebuild reachable_skinned forgetful_skinned h⟩

/-- Drops roots that were built before. -/
def unbuilt : Optimizer where
  name := "unbuilt-roots"
  optimize g r :=
    { r with fragment := r.fragment.filter fun x => (g.get? x).all (·.builtIn.isNone) }

def fickle : Material := { tint with optimizers := [unbuilt] }

/-- The second pass writes less than the first. -/
theorem rebuild_can_differ :
    fickle.Reachable ∧ ∃ c m' c' m'', fickle.build = (.ok c, m') ∧ m'.build = (.ok c', m'') ∧
      c'.template ≠ c.template := by
  have modest : unbuilt.Modest := fun g r =>
    ⟨fun x hx => .inl hx, fun x hx => .inl (mem_of_mem_filter hx)⟩
  have computed : (fickle.build.1.toOption.any fun c =>
      fickle.build.2.build.1.toOption.any fun c' => c'.template != c.template) = true := by
    decide +kernel
  obtain ⟨c, first, rest⟩ := exists_ok_of_any computed
  obtain ⟨c', second, apart⟩ := exists_ok_of_any rest
  exact ⟨.addOptimizer unbuilt reachable_tint modest, c, _, c', _, Prod.ext first rfl,
    Prod.ext second rfl, by simpa using apart⟩

end Material

end ShaderGraph
