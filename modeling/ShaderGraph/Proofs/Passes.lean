import ShaderGraph.Material.Build
import ShaderGraph.Proofs.Preparing
import ShaderGraph.Proofs.Stages

/-!
# A pass from its walks to its result

The walks of a pass fix a set of blocks: it holds the roots, it holds whatever feeds one of its
blocks, and no input of its blocks reads a varying (`Material.Scope`). The emission works within
that set, so that `Emission.run_sound` applies, as long as fogs keep out of what the vertex stage
builds (`Material.FogApart`) and optimizers keep to the roots they are given (`Optimizer.Modest`).
-/

namespace ShaderGraph

variable {x : BlockId}

open Relation List ShaderGraph.Graph Block Emission Preparation Optimizer

/-! ## 1. The walks of a pass -/

namespace Material

variable {m m' : Material} {x : BlockId} {c : CompiledGraph} {e : Emission}

/-- The blocks that a pass looks at. -/
structure Scope (m : Material) (S : BlockId → Prop) : Prop where
  vertex : ∀ x ∈ m.roots.vertex, S x
  fragment : ∀ x ∈ m.roots.fragment, S x
  closed : ∀ x y, S x → m.prepare.state.graph.Upstream x y → S y
  plain : ∀ x, S x → m.prepare.state.graph.Plain x
  fromVertex : ∀ x ∈ m.prepare.fromVertex, S x ∧
    ∃ b, m.prepare.state.graph.get? x = some b ∧ b.target = .vertexAndFragment
  fromFragment : ∀ x ∈ m.prepare.fromFragment, S x ∧
    ∃ b, m.prepare.state.graph.get? x = some b ∧
      (b.target = .vertexAndFragment ∨ b.target = .vertex)

def firstWalk (m : Material) : Preparation :=
  Preparation.walk .vertex m.roots.vertex
    { graph := m.graph, ledger := m.newLedger, autoConfigure := m.options.autoConfigure }

theorem state_prepare (m : Material) :
    m.prepare.state = m.firstWalk.andThen (·.walk .fragment m.roots.fragment) := rfl

theorem walked_firstWalk (hg : m.graph.Proper) :
    m.graph.Extends m.firstWalk.graph ∧ m.newLedger.SameButNames m.firstWalk.ledger := by
  have h := widens_walk
    (p := { graph := m.graph, ledger := m.newLedger, autoConfigure := m.options.autoConfigure })
    .vertex m.roots.vertex hg
  exact ⟨h.graph, h.ledger⟩

/-- Whatever becomes of the walks, they only add leaves, and take names. -/
theorem extends_prepare (hg : m.graph.Proper) :
    m.graph.Extends m.prepare.state.graph ∧ m.newLedger.SameButNames m.prepare.state.ledger := by
  obtain ⟨first, ledger⟩ := walked_firstWalk hg
  rw [state_prepare]
  unfold Preparation.andThen
  split
  · exact ⟨first, ledger⟩
  · have second := widens_walk .fragment m.roots.fragment first.proper
    exact ⟨first.trans second.graph, ledger.trans second.ledger⟩

theorem regular_prepare (hg : m.graph.Proper) : m.prepare.state.graph.Regular :=
  (extends_prepare hg).1.proper.toRegular

variable (hg : m.graph.Proper) (hf : m.prepare.state.fault = none)
include hg hf

/-- A pass without a fault has made both walks, and each has covered what is behind its roots. -/
theorem prepare_clear :
    m.prepare.state = m.firstWalk.walk .fragment m.roots.fragment ∧ m.firstWalk.fault = none ∧
      m.firstWalk.Covered .vertex m.roots.vertex ∧
      m.prepare.state.Covered .fragment m.roots.fragment := by
  have proper := (walked_firstWalk hg).1.proper
  have eq : m.prepare.state = m.firstWalk.walk .fragment m.roots.fragment := andThen_of_fault hf
  rw [eq] at hf ⊢
  have clear := (widens_walk .fragment m.roots.fragment proper).fault hf
  exact ⟨rfl, clear, covered_walk hg clear, covered_walk proper hf⟩

/-- The blocks that a pass looks at are those that its walks meet. -/
theorem scope_prepare : m.Scope fun x => x ∈ m.firstWalk.visited ∨ x ∈ m.prepare.state.visited := by
  obtain ⟨eq, -, covered₁, covered₂⟩ := prepare_clear hg hf
  have second := widens_walk .fragment m.roots.fragment (walked_firstWalk hg).1.proper
  rw [← eq] at second
  constructor
  case vertex => exact fun x hx => .inl (covered₁.roots x hx)
  case fragment => exact fun x hx => .inr (covered₂.roots x hx)
  case closed =>
    intro x y hx hxy
    -- the second walk links new leaves only to blocks that it meets
    by_cases hx₂ : x ∈ m.prepare.state.visited
    · exact .inr (covered₂.closed x hx₂ y hxy).1
    · exact .inl (covered₁.closed x (hx.resolve_right hx₂) y (second.frame x y (.inr hx₂) hxy)).1
  case plain =>
    rintro x (hx | hx)
    · rw [eq]
      exact at_walk Block.lasting_plain _ _ (covered₁.plain x hx)
    · exact covered₂.plain x hx
  case fromVertex =>
    intro x hx
    obtain ⟨hvisited, b, hb, target⟩ := covered₁.crossing x hx
    obtain ⟨b', hb', same⟩ := second.graph.blocks x b hb
    refine ⟨.inl hvisited, b', hb', (target_of_shape same).trans (target.resolve_right ?_)⟩
    exact fun other => nomatch other.1
  case fromFragment =>
    intro x hx
    obtain ⟨hvisited, b, hb, target⟩ := covered₂.crossing x hx
    exact ⟨.inr hvisited, b, hb, target.imp_right And.right⟩

theorem exists_scope : ∃ S, m.Scope S := ⟨_, scope_prepare hg hf⟩

end Material

/-! ## 2. Optimizers and fogs -/

/-- An optimizer may reorder, repeat and drop roots, and name blocks that are not there. -/
def Optimizer.Modest (o : Optimizer) : Prop :=
  ∀ g r, (∀ x ∈ (o.optimize g r).vertex, x ∈ r.vertex ∨ x ∉ g.ids) ∧
    ∀ x ∈ (o.optimize g r).fragment, x ∈ r.fragment ∨ x ∉ g.ids

theorem Optimizer.modest_foldl {optimizers : List Optimizer} (h : ∀ o ∈ optimizers, o.Modest)
    (g : Graph) (r : Roots) :
    (∀ x ∈ (optimizers.foldl (fun r o => o.optimize g r) r).vertex, x ∈ r.vertex ∨ x ∉ g.ids) ∧
      ∀ x ∈ (optimizers.foldl (fun r o => o.optimize g r) r).fragment,
        x ∈ r.fragment ∨ x ∉ g.ids := by
  induction optimizers generalizing r with
  | nil => exact ⟨fun x hx => .inl hx, fun x hx => .inl hx⟩
  | cons o rest ih =>
    obtain ⟨vertex, fragment⟩ := ih (fun o ho => h o (mem_cons_of_mem _ ho)) (o.optimize g r)
    obtain ⟨vertex', fragment'⟩ := h o mem_cons_self g r
    refine ⟨fun x hx => ?_, fun x hx => ?_⟩
    · exact (vertex x hx).elim (vertex' x) .inr
    · exact (fragment x hx).elim (fragment' x) .inr

theorem mem_foldl_pushNew {more ids : List BlockId} :
    x ∈ more.foldl (fun ids id => pushNew id ids) ids ↔ x ∈ ids ∨ x ∈ more := by
  induction more generalizing ids with
  | nil => simp
  | cons y more ih => rw [foldl_cons, ih, mem_pushNew, mem_cons, or_assoc]

theorem Optimizer.modest_deduplicate : Optimizer.deduplicate.Modest := by
  have kept : ∀ (g : Graph) (roots : List BlockId), ∀ x ∈ g.distinctRoots roots, x ∈ roots :=
    fun g roots x hx =>
      mem_of_mem_filter ((mem_foldl_pushNew.mp hx).resolve_left not_mem_nil)
  exact fun g r => ⟨fun x hx => .inl (kept g _ x hx), fun x hx => .inl (kept g _ x hx)⟩

/-- Edges that lead on from a new leaf do not exist, so that a path to a block that is not an input
is an old one. -/
theorem Graph.Extends.path_back {g g' : Graph} (h : g.Extends g') {y : BlockId} {b : Block}
    (hb : g'.get? y = some b) (hin : b.kind.isInput = false) (hpath : TransGen g'.Upstream x y) :
    TransGen g.Upstream x y := by
  have old : ∀ {x y b}, g'.get? y = some b → b.kind.isInput = false → g'.Upstream x y →
      g.Upstream x y := by
    intro x y b hb hin hxy
    refine (h.edges x y hxy).resolve_right ?_
    rintro ⟨c, hc, hleaf⟩
    cases hb.symm.trans hc
    rw [hin] at hleaf
    cases hleaf
  induction hpath generalizing b with
  | single hxy => exact .single (old hb hin hxy)
  | @tail y z _ hyz ih =>
    obtain ⟨c, hc⟩ := mem_ids_iff.mp hyz.mem_ids
    refine .tail (ih hc ?_) (old hb hin hyz)
    by_contra hleaf
    exact h.proper.toRegular.not_upstream_of_isInput hc (by simpa using hleaf) _ hyz

namespace Material

variable {m m' : Material} {x y : BlockId} {c : CompiledGraph} {e : Emission} {S : BlockId → Prop}

/-- No fog is a root, and none is behind a block of the vertex stage, behind a root of the vertex
stage or behind another fog. -/
structure FogApart (m : Material) : Prop where
  roots : ∀ y b, m.graph.get? y = some b → b.kind.isFog = true →
    y ∉ m.roots.vertex ∧ y ∉ m.roots.fragment
  behind : ∀ x y b, TransGen m.graph.Upstream x y → m.graph.get? y = some b →
    b.kind.isFog = true → x ∉ m.roots.vertex ∧
      ∀ c, m.graph.get? x = some c → c.target ≠ .vertex ∧ c.kind.isFog = false

theorem mem_mergeNodes {nodes more : List BlockId} :
    x ∈ mergeNodes nodes more ↔ x ∈ nodes ∨ x ∈ more := mem_foldl_pushNew

/-- What a pass builds in the vertex stage is fed by no fog. -/
theorem FogApart.noFog (hfog : m.FogApart) (hg : m.graph.Proper) (hscope : m.Scope S)
    {vertexRoots : List BlockId}
    (hroots : ∀ x ∈ vertexRoots, x ∈ m.roots.vertex ∨ x ∉ m.prepare.state.graph.ids) {n : BlockId}
    (hn : n ∈ mergeNodes vertexRoots m.prepare.fromFragment)
    (hpath : TransGen m.prepare.state.graph.Upstream n y) {b : Block}
    (hb : m.prepare.state.graph.get? y = some b) : b.kind.isFog = false := by
  obtain ⟨extension, -⟩ := extends_prepare hg
  rw [Bool.eq_false_iff]
  intro hfogged
  have hin := (Kind.isFog_iff.mp hfogged).1
  obtain ⟨b₀, hb₀, same⟩ := extension.back hb hin
  rw [isFog_of_shape same] at hfogged
  obtain ⟨hroot, hbefore⟩ := hfog.behind n y b₀ (extension.path_back hb hin hpath) hb₀ hfogged
  have hids : n ∈ m.prepare.state.graph.ids := by
    obtain ⟨z, hz, -⟩ := TransGen.head'_iff.mp hpath
    exact hz.mem_ids
  rcases mem_mergeNodes.mp hn with hn | hn
  · rcases hroots n hn with hn | hn
    · exact hroot hn
    · exact hn hids
  · obtain ⟨-, c, hc, htarget⟩ := hscope.fromFragment n hn
    have hleaf : c.kind.isInput = false := by
      by_contra hleaf
      obtain ⟨z, hz, -⟩ := TransGen.head'_iff.mp hpath
      exact extension.proper.toRegular.not_upstream_of_isInput hc (by simpa using hleaf) _ hz
    obtain ⟨c₀, hc₀, same⟩ := extension.back hc hleaf
    obtain ⟨hvertex, hnot⟩ := hbefore c₀ hc₀
    rcases htarget with htarget | htarget
    · rw [← isFog_of_shape same, Kind.isFog_iff.mpr ⟨hleaf, htarget⟩] at hnot
      cases hnot
    · exact hvertex ((target_of_shape same).symm.trans htarget)

/-! ## 3. The emission of a pass -/

def unwritten (m : Material) : Emission :=
  let draft (stage : Stage) : StageDraft :=
    { stage, language := m.options.language, comments := m.options.comments }
  { graph := m.prepare.state.graph, vertex := draft .vertex, fragment := draft .fragment
    ledger := m.prepare.state.ledger }

theorem steady_unwritten (hg : m.graph.Proper) :
    Emission.Ongoing m.prepare.state.graph m.options.language m.unwritten :=
  ⟨⟨rfl, rfl, fun stage => by cases stage <;> rfl⟩, (extends_prepare hg).1.proper.toRegular⟩

/-- What a pass without a fault writes, and what it calls to write it. -/
def emission (m : Material) : Except Halt Emission :=
  m.emit m.prepare (m.optimizers.foldl (fun r o => o.optimize m.prepare.state.graph r) m.roots)

/-- A pass takes over the graph of its walks, and that of its emission if it gets so far. -/
theorem runPass_eq (m : Material) :
    m.runPass =
      let n : Material :=
        { m with
          pass := m.pass.next, graph := m.prepare.state.graph
          attached := m.prepare.state.attached }
      match m.prepare.state.fault with
      | some fault => (.error fault, { n with compiled := none })
      | none =>
        match m.emission with
        | .error halt => (.error (.graph halt.cause), { n with graph := halt.graph })
        | .ok e =>
          match n.finish e with
          | .error fault => (.error (.code fault), { n with graph := e.graph })
          | .ok c => (.ok c, { n with graph := e.graph }.store c) := by
  rfl

theorem runPass_eq_ok (hf : m.prepare.state.fault = none) (he : m.emission = .ok e)
    (hc : finish { m with pass := m.pass.next } e = .ok c) : m.runPass.1 = .ok c := by
  rw [runPass_eq]
  simp only [hf, he]
  split
  · rename_i fault hfault
    cases hc.symm.trans hfault
  · rename_i c' hc'
    rw [show c' = c from Except.ok.inj (hc'.symm.trans hc)]

theorem runPass_of_build (h : m.build = (.ok c, m')) : m.runPass = (.ok c, m') := by
  unfold build at h
  split at h
  · cases h
  · split at h
    · cases h
    · exact h

/-- A build that gives a result went through all of a pass. -/
theorem build_eq_ok (h : m.build = (.ok c, m')) :
    m.prepare.state.fault = none ∧ ∃ e, m.emission = .ok e ∧
      finish { m with pass := m.pass.next } e = .ok c ∧ m'.graph = e.graph := by
  have hrun := runPass_of_build h
  rw [runPass_eq] at hrun
  dsimp only at hrun
  split at hrun
  · cases hrun
  · rename_i hfault
    split at hrun
    · cases hrun
    · rename_i e he
      split at hrun
      · cases hrun
      · rename_i c' hc
        obtain ⟨rfl, rfl⟩ : c' = c ∧ _ = m' := by simpa using hrun
        exact ⟨hfault, e, he, hc, rfl⟩

/-- Whatever becomes of a build, the graph is the old one, the one that the walks left, or the one
that the emission left. -/
theorem graph_build (m : Material) :
    m.build.2.roots = m.roots ∧ m.build.2.optimizers = m.optimizers ∧
      (m.build.2.graph = m.graph ∨ m.build.2.graph = m.prepare.state.graph ∨
        (m.prepare.state.fault = none ∧ m.build.2.graph = lastGraph m.emission)) := by
  unfold build
  split
  · exact ⟨rfl, rfl, .inl rfl⟩
  · split
    · exact ⟨rfl, rfl, .inl rfl⟩
    · rw [runPass_eq]
      dsimp only
      split
      · exact ⟨rfl, rfl, .inr (.inl rfl)⟩
      · rename_i hfault
        split
        · rename_i halt he
          exact ⟨rfl, rfl, .inr (.inr ⟨hfault, by rw [he]; rfl⟩)⟩
        · rename_i e he
          split <;> exact ⟨rfl, rfl, .inr (.inr ⟨hfault, by rw [he]; rfl⟩)⟩

theorem steady_emission (hg : m.graph.Proper) (h : m.emission = .ok e) :
    Emission.Ongoing m.prepare.state.graph m.options.language e :=
  run_steady (steady_unwritten hg) h

theorem emission_outcome (hg : m.graph.Proper) :
    let roots := m.optimizers.foldl (fun r o => o.optimize m.prepare.state.graph r) m.roots
    Emission.Outcome m.prepare.state.graph m.options.language
      (mergeNodes roots.vertex m.prepare.fromFragment ++
        mergeNodes m.prepare.fromVertex roots.fragment) m.emission :=
  (run_outcome (steady_unwritten hg) _ _).1

theorem extends_lastGraph (hg : m.graph.Proper) : m.graph.Extends (lastGraph m.emission) := by
  obtain ⟨extension, -⟩ := extends_prepare hg
  obtain ⟨outlines, counter⟩ := (emission_outcome hg).last
  exact extension.trans (.of_outlines extension.proper outlines counter)

/-- A build lets the graph grow, also if it fails. -/
theorem extends_build (hg : m.graph.Proper) : m.graph.Extends m.build.2.graph := by
  rcases (graph_build m).2.2 with same | same | ⟨-, same⟩
  · rw [same]
    exact .refl hg
  · rw [same]
    exact (extends_prepare hg).1
  · rw [same]
    exact extends_lastGraph hg

/-- What the stages build is in scope, as long as optimizers keep to the roots they are given. -/
theorem Scope.gathered (hscope : m.Scope S) (modest : ∀ o ∈ m.optimizers, o.Modest) :
    let roots := m.optimizers.foldl (fun r o => o.optimize m.prepare.state.graph r) m.roots
    (∀ x ∈ m.prepare.state.graph.gather (mergeNodes roots.vertex m.prepare.fromFragment), S x) ∧
      ∀ x ∈ m.prepare.state.graph.gather (mergeNodes m.prepare.fromVertex roots.fragment), S x := by
  obtain ⟨vertexRoots, fragmentRoots⟩ :=
    modest_foldl modest m.prepare.state.graph m.roots
  -- what is not in the graph has nothing behind it
  have within : ∀ {nodes : List BlockId},
      (∀ n ∈ nodes, S n ∨ n ∉ m.prepare.state.graph.ids) →
      ∀ x ∈ m.prepare.state.graph.gather nodes, S x := by
    intro nodes hnodes x hx
    obtain ⟨hid, n, hn, hpath⟩ := mem_gather_iff.mp hx
    have hids : n ∈ m.prepare.state.graph.ids := by
      rcases ReflTransGen.cases_head hpath with rfl | ⟨y, hy, -⟩
      · exact hid
      · exact hy.mem_ids
    have start : S n := (hnodes n hn).resolve_right fun hn => hn hids
    exact closed_of_reflTransGen hscope.closed hpath start
  refine ⟨within fun n hn => ?_, within fun n hn => ?_⟩
  · rcases mem_mergeNodes.mp hn with hn | hn
    · exact (vertexRoots n hn).imp_left (hscope.vertex n)
    · exact .inl (hscope.fromFragment n hn).1
  · rcases mem_mergeNodes.mp hn with hn | hn
    · exact .inl (hscope.fromVertex n hn).1
    · exact (fragmentRoots n hn).imp_left (hscope.fragment n)

theorem worded_emission (hg : m.graph.Proper) (h : m.emission = .ok e) (s : Stage) :
    (e.draft s).Worded :=
  run_worded (steady_unwritten hg)
    (fun s => by cases s <;> exact fun c hc => nomatch hc) h s

/-- Every block that a pass calls reads right symbols. -/
theorem emission_sound (hg : m.graph.Proper) (entered : m.graph.Entered)
    (modest : ∀ o ∈ m.optimizers, o.Modest) (hfog : m.FogApart)
    (hf : m.prepare.state.fault = none) (h : m.emission = .ok e) :
    Emission.AllSound m.options.language e ∧ Emission.VaryingsFilled m.options.language e ∧
      ∀ s, (e.draft s).Worded ∧ (e.draft s).language = m.options.language := by
  obtain ⟨extension, names, ledger⟩ := extends_prepare hg
  have varyings : m.prepare.state.ledger.varyings = [] := by
    rw [ledger]
    rfl
  obtain ⟨S, hscope⟩ := exists_scope hg hf
  obtain ⟨vertexRoots, -⟩ := modest_foldl modest m.prepare.state.graph m.roots
  obtain ⟨vertexNodes, fragmentNodes⟩ := hscope.gathered modest
  have worded := worded_emission hg h
  unfold emission emit at h
  obtain ⟨V, F, hstage⟩ := run_sound
    (l := m.options.language) (S := S) (steady_unwritten hg) (extension.entered entered) rfl rfl
    varyings vertexNodes fragmentNodes (fun x b hx hb => hscope.plain x hx b hb)
    (by
      intro x y b hx hxy hb
      obtain ⟨-, n, hn, hpath⟩ := mem_gather_iff.mp hx
      exact hfog.noFog hg hscope vertexRoots hn (TransGen.tail' hpath hxy) hb)
    h
  exact ⟨hstage.sound, hstage.varyings, fun s => ⟨worded s, hstage.steady.language s⟩⟩

end Material

/-! ## 4. The result of a pass -/

namespace CompiledGraph

def part (c : CompiledGraph) : Stage → CompiledStage
  | .vertex => c.vertex
  | .fragment => c.fragment

/-- A symbol that a stage declares outside all functions. -/
def Declares (c : CompiledGraph) (stage : Stage) (symbol : String) : Prop :=
  (∃ u ∈ (c.part stage).uniforms, c.language.uniformRef u.name = symbol) ∨
    ∃ type literal, c.language.declareConst symbol type literal ∈ (c.part stage).constants

/-- The varying of a symbol is listed, and the code of the vertex stage fills it from the symbol,
whatever the defines are and whatever the anchors are filled with. -/
def Fills (c : CompiledGraph) (symbol : String) : Prop :=
  (∃ v ∈ c.varyings, v.name = "v_" ++ symbol) ∧
    ∀ defines fills, ∃ before after,
      Segment.renders defines fills c.vertex.body =
        before ++ (c.language.varyingRef .vertex ("v_" ++ symbol) ++ " = " ++ symbol ++ ";\n") ++
          after

/-- A symbol that a call reads, after the calls `before`, for an output. In the fragment stage the
value of an attribute, and of a block that only the vertex stage builds, is read through a varying.
Every other value is read by the symbol of the output, and was made earlier in the stage or is
declared there. -/
structure Refers (c : CompiledGraph) (e : Emission) (before : List BuildCall) (stage : Stage)
    (source : SocketRef) (symbol : String) : Prop where
  carried : stage = .fragment → e.FromVertex source.block →
    symbol = c.language.varyingRef .fragment ("v_" ++ e.graph.symbolAt source) ∧
      c.Fills (e.graph.symbolAt source)
  made : ¬(stage = .fragment ∧ e.FromVertex source.block) →
    symbol = e.graph.symbolAt source ∧
      ((∃ q ∈ before, q.block = source.block ∧ q.stage = stage) ∨
        ∃ p, e.graph.get? source.block = some p ∧ p.kind.isInput = true ∧
          p.kind.isAttribute = false ∧ c.Declares stage symbol)

/-- Every input of the called block that is linked and looked at in the stage of the call is given a
symbol that exists there, and so is what a teleport brings to it. -/
structure CallRefers (c : CompiledGraph) (e : Emission) (before : List BuildCall)
    (call : BuildCall) : Prop where
  inputs : ∀ (b : Block) (i : Nat) (p : InputSocket) (s : SocketRef),
    e.graph.get? call.block = some b → b.inputs[i]? = some p → p.link = some s →
    Emission.isProcessed b call.stage p.spec = true →
    ∃ slot : Slot, call.inputs[i]? = some slot ∧ slot.name = p.spec.name ∧
      c.Refers e before call.stage s slot.symbol
  entry : ∀ b : Block, e.graph.get? call.block = some b → b.kind.isTeleportOut = true →
    ∃ (entry : BlockId) (s : SocketRef) (slot : Slot), b.kind.teleportEntry = some entry ∧
      e.graph.source? ⟨entry, 0⟩ = some s ∧ call.inputs[b.inputs.length]? = some slot ∧
      slot.name = "entry" ∧ c.Refers e before call.stage s slot.symbol

end CompiledGraph

namespace Material

variable {m : Material} {c : CompiledGraph} {e : Emission} {before : List BuildCall}

theorem finish_stage_eq_ok {d : StageDraft} {s : CompiledStage} (h : d.finish = .ok s) :
    d.code.regions = [] ∧ s.body = d.code.root ∧ s.uniforms = d.uniforms ∧
      s.constants = d.constants.map NamedText.text ∧ s.attributes = d.attributes := by
  unfold StageDraft.finish CodeBuffer.segments at h
  split at h
  · rename_i closed
    cases h
    exact ⟨isEmpty_iff.mp closed, rfl, rfl, rfl, rfl⟩
  · cases h

variable (h : m.finish e = .ok c)
include h

theorem finish_eq_ok :
    e.vertex.code.regions = [] ∧ c.vertex.body = e.vertex.code.root ∧
      (∀ s, (c.part s).uniforms = (e.draft s).uniforms ∧
        (c.part s).constants = (e.draft s).constants.map NamedText.text ∧
        (c.part s).attributes = (e.draft s).attributes) ∧
      c.language = m.options.language ∧ c.varyings = e.ledger.varyings ∧
      c.errors = e.ledger.errors := by
  obtain ⟨vertex, hv, h⟩ := bind_eq_ok_iff.mp h
  obtain ⟨fragment, hf, h⟩ := bind_eq_ok_iff.mp h
  cases h
  obtain ⟨closed, body, vertexDecls⟩ := finish_stage_eq_ok hv
  obtain ⟨-, -, fragmentDecls⟩ := finish_stage_eq_ok hf
  refine ⟨closed, body, fun s => ?_, rfl, rfl, rfl⟩
  cases s with
  | vertex => exact vertexDecls
  | fragment => exact fragmentDecls

theorem body_finish (s : Stage) : (c.part s).body = (e.draft s).code.root := by
  obtain ⟨vertex, hv, h⟩ := bind_eq_ok_iff.mp h
  obtain ⟨fragment, hf, h⟩ := bind_eq_ok_iff.mp h
  cases h
  cases s with
  | vertex => exact (finish_stage_eq_ok hv).2.1
  | fragment => exact (finish_stage_eq_ok hf).2.1

theorem roster_finish : c.roster = e.ledger.roster := by
  obtain ⟨vertex, -, h⟩ := bind_eq_ok_iff.mp h
  obtain ⟨fragment, -, h⟩ := bind_eq_ok_iff.mp h
  rw [← Except.ok.inj h]

/-- What an emission read right is right in the result. -/
theorem refers_of_reads (filled : Emission.VaryingsFilled m.options.language e)
    (worded : ∀ s, (e.draft s).Worded ∧ (e.draft s).language = m.options.language) {stage : Stage}
    {source : SocketRef} {symbol : String}
    (hr : Emission.Reads m.options.language e before stage source symbol) :
    c.Refers e before stage source symbol := by
  obtain ⟨closed, body, parts, language, varyings, -⟩ := finish_eq_ok h
  cases hr with
  | direct q hq hx hqs hn hsymbol =>
    refine ⟨fun hstage hfrom => absurd hfrom (hn hstage), fun _ => ⟨hsymbol, ?_⟩⟩
    exact .inl ⟨q, hq, hx, hqs⟩
  | declared q p hstage hq hx hn hp hin hatt hsymbol hdecl =>
    refine ⟨fun _ hfrom => absurd hfrom hn, fun _ => ⟨hsymbol, .inr ⟨p, hp, hin, hatt, ?_⟩⟩⟩
    subst hstage
    obtain ⟨uniforms, constants, -⟩ := parts .fragment
    obtain ⟨hworded, hlanguage⟩ := worded .fragment
    unfold CompiledGraph.Declares
    rw [uniforms, constants, language]
    rcases hdecl with ⟨u, hu, hs⟩ | ⟨d, hd, rfl⟩
    · exact .inl ⟨u, hu, hlanguage ▸ hs⟩
    · obtain ⟨type, literal, htext⟩ := hworded d hd
      refine .inr ⟨type, literal, mem_map.mpr ⟨d, hd, ?_⟩⟩
      rw [htext, hlanguage]
  | varying q hstage hq hx hfrom hvarying =>
    refine ⟨fun _ _ => ?_, fun hn => absurd ⟨hstage, hfrom⟩ hn⟩
    obtain ⟨hsymbol, hlisted⟩ := hvarying
    refine ⟨language ▸ hsymbol, ?_, ?_⟩
    · obtain ⟨v, hv, hname⟩ := any_eq_true.mp hlisted
      exact ⟨v, varyings ▸ hv, beq_iff_eq.mp hname⟩
    · intro defines fills
      rw [body, language]
      exact filled.assigned hlisted closed defines fills

/-- Every call of a pass without problems is given symbols that exist in its stage. -/
theorem callRefers_of_callSound (clean : c.errors = [])
    (filled : Emission.VaryingsFilled m.options.language e)
    (worded : ∀ s, (e.draft s).Worded ∧ (e.draft s).language = m.options.language)
    {call : BuildCall} (hsound : Emission.CallSound m.options.language e before call) :
    c.CallRefers e before call := by
  obtain ⟨-, -, -, -, -, errors⟩ := finish_eq_ok h
  have custom : e.ledger.customErrors = [] := by
    rw [errors, Ledger.errors] at clean
    exact (append_eq_nil_iff.mp clean).2
  constructor
  case inputs =>
    intro b i p s hb hp hl hprocessed
    obtain ⟨slot, hslot, hname, hreads⟩ := hsound.inputs b i p s hb hp hl hprocessed
    exact ⟨slot, hslot, hname, refers_of_reads h filled worded hreads⟩
  case entry =>
    intro b hb hout
    obtain ⟨entry, s, slot, hentry, hsource, hslot, hname, hreads⟩ :=
      hsound.teleport b hb hout custom
    exact ⟨entry, s, slot, hentry, hsource, hslot, hname, refers_of_reads h filled worded hreads⟩

end Material

end ShaderGraph
