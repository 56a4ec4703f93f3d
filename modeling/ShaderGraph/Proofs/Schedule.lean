import ShaderGraph.Proofs.Materials

/-!
# The order in which blocks are called

Each stage calls a block once at most, after what feeds it. A block that belongs to both stages is
called again for the second one and keeps its symbols; every other block is called once in all.
This holds of every graph that the public operations make, with fog or without
(`Material.build_schedule`).

One record, `Scheduled`, serves both stages. It says how the calls made so far are known from the
list of built blocks, which is all that an emission looks at before it calls a block.
-/

namespace ShaderGraph

open Relation List ShaderGraph.Graph Block

/-- A block of the graph that belongs to both stages. -/
def Graph.Dual (g : Graph) (x : BlockId) : Prop :=
  ∃ b, g.get? x = some b ∧ b.target = .vertexAndFragment

theorem Graph.dual_of_outlines {g g' : Graph} (h : g'.outlines = g.outlines) {x : BlockId}
    (hx : g'.Dual x) : g.Dual x := by
  obtain ⟨b', hb', ht⟩ := hx
  obtain ⟨b, hb, same⟩ := exists_get?_of_outlines h.symm hb'
  exact ⟨b, hb, by rw [target_of_outline same]; exact ht⟩

namespace Emission

variable {e e' : Emission} {stage : Stage} {g : Graph} {l : Language} {T : BlockId → Prop}
  {vertexNodes : List BlockId}

/-! ## 1. A call in time -/

/-- A call that was made after the calls that it depends on: those of what feeds the inputs that are
looked at in its stage, and that of its teleport entry. What belongs to both stages was called for
the same stage. -/
structure Timely (g : Graph) (before : List BuildCall) (call : BuildCall) : Prop where
  fed : ∀ (c : Block) (i : Nat) (p : InputSocket) (s : SocketRef), g.get? call.block = some c →
    c.inputs[i]? = some p → p.link = some s → isProcessed c call.stage p.spec = true →
    ∃ q ∈ before, q.block = s.block ∧ (g.Dual s.block → q.stage = call.stage)
  entered : ∀ entry, g.origin? call.block = some entry → ∃ q ∈ before, q.block = entry

theorem Timely.of_outlines {g' : Graph} (h : g'.outlines = g.outlines) {before : List BuildCall}
    {call : BuildCall} (ht : Timely g before call) : Timely g' before call where
  fed c' i p' s hc' hp' hl hprocessed := by
    obtain ⟨c, hc, same⟩ := exists_get?_of_outlines h.symm hc'
    obtain ⟨p, hp, hspec, hlink⟩ := input_of_outline same hp'
    have hprocessed' : isProcessed c call.stage p.spec = true := by
      unfold isProcessed at hprocessed ⊢
      rwa [hspec, target_of_outline same]
    obtain ⟨q, hq, hqs, hstage⟩ := ht.fed c i p s hc hp (hlink.trans hl) hprocessed'
    exact ⟨q, hq, hqs, fun hdual => hstage (dual_of_outlines h hdual)⟩
  entered entry hentry := ht.entered entry (by rw [← origin?_of_outlines h]; exact hentry)

/-! ## 2. One stage -/

/-- What holds while the blocks of `T` are built for a stage. The list of built blocks tells which
calls were made: all of the stage, and all of blocks that belong to one stage only. -/
structure Scheduled (g : Graph) (l : Language) (stage : Stage) (T : BlockId → Prop) (e : Emission) :
    Prop where
  steady : Ongoing g l e
  settled : AllSettled l e
  known : ∀ q ∈ e.calls, q.block ∈ g.ids
  distinct : (e.calls.map fun q => (q.block, q.stage)).Nodup
  once : ∀ x, ¬g.Dual x → (e.calls.map BuildCall.block).count x ≤ 1
  timely : ∀ before call after, e.calls = before ++ call :: after → Timely g before call
  symbols : ∀ q ∈ e.calls, ∀ b, e.graph.get? q.block = some b →
    q.outputs.map Slot.symbol = b.outputs.map OutputSocket.symbol
  built : ∀ x ∈ e.built, ∃ q ∈ e.calls, q.block = x ∧ (T x → g.Dual x → q.stage = stage)
  calls : ∀ q ∈ e.calls, q.stage = stage → q.block ∈ e.built
  single : ∀ q ∈ e.calls, ¬g.Dual q.block → q.block ∈ e.built
  first : stage = .vertex → ∀ q ∈ e.calls, q.stage = .vertex

namespace Scheduled

variable {id : BlockId} {brought : List Slot} {made : BuildCall}

theorem start (hs : Ongoing g l e) (hcalls : e.calls = []) (hbuilt : e.built = []) :
    Scheduled g l stage T e := by
  have none : ∀ q, q ∉ e.calls := fun q hq => by rw [hcalls] at hq; cases hq
  refine ⟨hs, fun q hq => absurd hq (none q), fun q hq => absurd hq (none q), ?_, ?_, ?_,
    fun q hq => absurd hq (none q), ?_, fun q hq => absurd hq (none q),
    fun q hq => absurd hq (none q), fun _ q hq => absurd hq (none q)⟩
  · rw [hcalls]
    exact nodup_nil
  · intro x _
    rw [hcalls]
    exact Nat.zero_le 1
  · intro before call after heq
    exact absurd (heq ▸ mem_append_right before mem_cons_self) (none call)
  · intro x hx
    rw [hbuilt] at hx
    cases hx

/-- What a call depends on is on the list of built blocks, so that it was called. -/
theorem timely_last (closed : ∀ x y, T x → g.Upstream x y → T y) (h : Scheduled g l stage T e)
    {b b' : Block} (calling : Calling l stage T id brought e e' b b' made) :
    Timely g e.calls made := by
  refine Timely.of_outlines h.steady.outlines.symm ⟨?_, ?_⟩
  · intro c i p s hc hp hl hprocessed
    rw [calling.made_block, calling.before] at hc
    cases hc
    rw [calling.made_stage] at hprocessed ⊢
    obtain ⟨hbuilt, -⟩ := calling.fed i b p s calling.before hp hl hprocessed
    have hup : e.graph.Upstream id s.block :=
      upstream_of_source? (r := ⟨id, i⟩) (source?_eq_some_iff.mpr
        ⟨p, input?_eq_some_iff.mpr ⟨b, calling.before, hp⟩, hl⟩)
    have hT : T s.block := h.steady.closed closed _ _ calling.member hup
    obtain ⟨q, hq, hqs, hstage⟩ := h.built s.block hbuilt
    exact ⟨q, hq, hqs, fun hdual => hstage hT (dual_of_outlines h.steady.outlines hdual)⟩
  · intro entry hentry
    rw [calling.made_block] at hentry
    obtain ⟨c, hc, hentry⟩ := origin?_eq_some_iff.mp hentry
    cases calling.before.symm.trans hc
    have arrived := calling.arrived
    unfold Teleported at arrived
    simp only [hentry] at arrived
    obtain ⟨q, hq, hqs, -⟩ := h.built entry arrived.1
    exact ⟨q, hq, hqs⟩

/-- A block that is called is not on the list of built blocks, so that the stage has not called
it. -/
theorem distinct_last (h : Scheduled g l stage T e) {b b' : Block}
    (calling : Calling l stage T id brought e e' b b' made) :
    ((e.calls ++ [made]).map fun q => (q.block, q.stage)).Nodup := by
  rw [map_append, nodup_append]
  refine ⟨h.distinct, nodup_singleton _, ?_⟩
  intro pair hpair last hlast heq
  obtain ⟨q, hq, rfl⟩ := mem_map.mp hpair
  rw [map_singleton, calling.made_block, calling.made_stage] at hlast
  obtain ⟨hblock, hqs⟩ := Prod.mk.inj (heq.trans (mem_singleton.mp hlast))
  exact calling.fresh (hblock ▸ h.calls q hq hqs)

/-- Nor has the other stage, if the block belongs to one stage only. -/
theorem once_last (h : Scheduled g l stage T e) {x : BlockId} {b b' : Block}
    (calling : Calling l stage T id brought e e' b b' made) (hx : ¬g.Dual x) :
    ((e.calls ++ [made]).map BuildCall.block).count x ≤ 1 := by
  rw [map_append, count_append, map_singleton, calling.made_block]
  by_cases heq : id = x
  · have missing : x ∉ e.calls.map BuildCall.block := by
      intro hmem
      obtain ⟨q, hq, rfl⟩ := mem_map.mp hmem
      exact calling.fresh (heq ▸ h.single q hq hx)
    rw [count_eq_zero.mpr missing, heq, count_singleton_self]
  · rw [count_singleton, if_neg (by simpa using heq)]
    exact h.once x hx

theorem step (closed : ∀ x y, T x → g.Upstream x y → T y)
    (h : Scheduled g l stage T e) (hstep : Step l stage T e e') : Scheduled g l stage T e' := by
  have hs := h.steady
  constructor
  case steady => exact hstep.steady hs
  case settled => exact h.settled.step hs hstep
  case known =>
    intro q hq
    rcases hstep.mem_calls hs hq with hq | ⟨_, b, _, calling⟩
    · exact h.known q hq
    · rw [← ids_of_outlines hs.outlines]
      exact mem_ids_iff.mpr ⟨b, calling.before⟩
  case distinct =>
    rcases hstep.quiet_or_calling hs with quiet | ⟨_, _, _, _, made, calling⟩
    · rw [quiet.calls]
      exact h.distinct
    · rw [calling.calls]
      exact h.distinct_last calling
  case once =>
    intro x hx
    rcases hstep.quiet_or_calling hs with quiet | ⟨_, _, _, _, made, calling⟩
    · rw [quiet.calls]
      exact h.once x hx
    · rw [calling.calls]
      exact h.once_last calling hx
  case timely =>
    intro before call after heq
    rcases hstep.quiet_or_calling hs with quiet | ⟨_, _, _, _, made, calling⟩
    · rw [quiet.calls] at heq
      exact h.timely before call after heq
    · rw [calling.calls] at heq
      rcases split_append_singleton heq with ⟨rfl, rfl⟩ | ⟨init, heq⟩
      · exact h.timely_last closed calling
      · exact h.timely before call init heq
  case symbols =>
    intro q hq b' hb'
    rcases hstep.mem_calls hs hq with hq | ⟨_, _, _, calling⟩
    · obtain ⟨b, hb, hadv, -⟩ := hstep.advances_back hs hb'
      rw [(hadv.settled (h.settled q hq b hb)).2]
      exact h.symbols q hq b hb
    · obtain rfl := calling.eq_of_get? hb'
      exact calling.made_outputs
  case built =>
    intro x hx
    rcases hstep.mem_built hs hx with hx | ⟨_, _, _, made, calling⟩
    · obtain ⟨q, hq, hqx⟩ := h.built x hx
      exact ⟨q, hstep.calls_subset hs hq, hqx⟩
    · obtain ⟨q, hq, hqx, hqs⟩ := calling.calledIn
      exact ⟨q, hq, hqx, fun _ _ => hqs⟩
  case calls =>
    intro q hq hqs
    rcases hstep.mem_calls hs hq with hq | ⟨_, _, _, calling⟩
    · exact hstep.built_subset hs (h.calls q hq hqs)
    · exact calling.mem_built
  case single =>
    intro q hq hdual
    rcases hstep.mem_calls hs hq with hq | ⟨_, _, _, calling⟩
    · exact hstep.built_subset hs (h.single q hq hdual)
    · exact calling.mem_built
  case first =>
    intro hstage q hq
    rcases hstep.mem_calls hs hq with hq | ⟨_, _, _, calling⟩
    · exact h.first hstage q hq
    · exact calling.made_stage.trans hstage

theorem steps (closed : ∀ x y, T x → g.Upstream x y → T y)
    (h : Scheduled g l stage T e) (hsteps : Steps l stage T e e') : Scheduled g l stage T e' :=
  Steps.lasts (fun _ _ _ hstep h => h.step closed hstep) h.steady hsteps h

/-- Between the stages, the blocks that belong to both and are met again are taken off the list. -/
theorem reopen {V : BlockId → Prop} (h : Scheduled g l .vertex V e) (nodes : List BlockId) :
    Scheduled g l .fragment (fun x => x ∈ e.graph.gather nodes)
      (e.shareDeclarations.reopenDual nodes) where
  steady := h.steady.between nodes
  settled := h.settled
  known := h.known
  distinct := h.distinct
  once := h.once
  timely := h.timely
  symbols := h.symbols
  built x hx := by
    obtain ⟨q, hq, hqx, -⟩ := h.built x (mem_filter.mp hx).1
    refine ⟨q, hq, hqx, fun hT hdual => ?_⟩
    obtain ⟨b, hb, ht⟩ := dual_of_outlines h.steady.outlines.symm hdual
    exact absurd ⟨ht, hT⟩ ((mem_built_between e nodes hb).mp hx).2
  calls q hq hqs := by
    rw [h.first rfl q hq] at hqs
    cases hqs
  single q hq hdual := by
    obtain ⟨b, hb⟩ := mem_ids_iff.mp (ids_of_outlines h.steady.outlines ▸ h.known q hq)
    refine (mem_built_between e nodes hb).mpr ⟨h.single q hq hdual, fun ⟨ht, _⟩ => ?_⟩
    exact hdual (dual_of_outlines h.steady.outlines ⟨b, hb, ht⟩)
  first hstage := nomatch hstage

end Scheduled

/-! ## 3. Both stages -/

/-- What the fragment stage meets again can be found before the vertex stage. -/
theorem run_eq {e₁ : Emission} (hs : Ongoing g l e)
    (h : e.buildAll .vertex vertexNodes = .ok e₁) (fragmentNodes : List BlockId) :
    e.run vertexNodes fragmentNodes =
      { e₁.shareDeclarations with
        built := e₁.built.filter fun id =>
          !isDual e₁.graph (g.gather fragmentNodes) id }.buildAll .fragment fragmentNodes := by
  have steady := buildAll_steady hs h
  rw [run, h, ← gather_of_outlines steady.outlines]
  rfl

theorem run_scheduled (hs : Ongoing g l e) (hcalls : e.calls = [])
    (hbuilt : e.built = []) {fragmentNodes : List BlockId}
    (h : e.run vertexNodes fragmentNodes = .ok e') :
    Scheduled g l .fragment (fun x => x ∈ g.gather fragmentNodes) e' := by
  obtain ⟨e₁, steps₁, steps₂, -⟩ := run_steps hs h
  have vertex : Scheduled g l .vertex (fun x => x ∈ g.gather vertexNodes) e₁ :=
    (Scheduled.start hs hcalls hbuilt).steps (hs.outset.closed_gather vertexNodes) steps₁
  have reopened := vertex.reopen fragmentNodes
  rw [gather_of_outlines vertex.steady.outlines] at reopened
  exact reopened.steps (hs.outset.closed_gather fragmentNodes) steps₂

end Emission

namespace Material

open Emission (isProcessed)

variable {m m' : Material} {c : CompiledGraph}

/-- The calls of a build: no block is called twice for a stage, and a block that does not belong to
both is called once in all; what feeds the inputs that a call looks at was called before it, for the
same stage if it belongs to both, and so was the entry of its teleport; and a block that is called
for both stages leaves the same symbols both times. -/
theorem build_schedule (hm : m.Reachable) (h : m.build = (.ok c, m')) :
    ∃ e, m.emission = .ok e ∧ m'.graph = e.graph ∧
      (e.calls.map fun q => (q.block, q.stage)).Nodup ∧
      (∀ x b, m'.graph.get? x = some b → b.target ≠ .vertexAndFragment →
        (e.calls.map BuildCall.block).count x ≤ 1) ∧
      (∀ before call after, e.calls = before ++ call :: after →
        ∃ b, m'.graph.get? call.block = some b ∧
          (∀ (i : Nat) (p : InputSocket) (s : SocketRef), b.inputs[i]? = some p →
            p.link = some s → isProcessed b call.stage p.spec = true →
            ∃ q ∈ before, q.block = s.block ∧ ∀ producer, m'.graph.get? s.block = some producer →
              producer.target = .vertexAndFragment → q.stage = call.stage) ∧
          ∀ entry, b.kind.teleportEntry = some entry → ∃ q ∈ before, q.block = entry) ∧
      (∀ first ∈ e.calls, ∀ second ∈ e.calls, first.block = second.block →
        first.stage = .vertex → second.stage = .fragment →
        second.outputs.map Slot.symbol = first.outputs.map Slot.symbol) := by
  obtain ⟨-, e, he, -, hgraph⟩ := build_eq_ok h
  have scheduled := Emission.run_scheduled (steady_unwritten hm.wellFormed.graph)
    rfl rfl he
  have outlines := scheduled.steady.outlines
  have known : ∀ q ∈ e.calls, ∃ b, e.graph.get? q.block = some b := by
    intro q hq
    rw [← Graph.mem_ids_iff, Graph.ids_of_outlines outlines]
    exact scheduled.known q hq
  rw [hgraph]
  refine ⟨e, he, rfl, scheduled.distinct, ?_, ?_, ?_⟩
  · intro x b hb ht
    refine scheduled.once x fun hdual => ht ?_
    obtain ⟨b', hb', ht'⟩ := Graph.dual_of_outlines outlines.symm hdual
    rw [Option.some.inj (hb.symm.trans hb')]
    exact ht'
  · intro before call after heq
    obtain ⟨b, hb⟩ := known call (heq ▸ List.mem_append_right _ List.mem_cons_self)
    have timely := (scheduled.timely before call after heq).of_outlines outlines
    refine ⟨b, hb, fun i p s hp hl hprocessed => ?_, fun entry hentry => ?_⟩
    · obtain ⟨q, hq, hqs, hstage⟩ := timely.fed b i p s hb hp hl hprocessed
      exact ⟨q, hq, hqs, fun producer hproducer ht => hstage ⟨producer, hproducer, ht⟩⟩
    · exact timely.entered entry (Graph.origin?_eq_some_iff.mpr ⟨b, hb, hentry⟩)
  · intro first hfirst second hsecond heq _ _
    obtain ⟨b, hb⟩ := known first hfirst
    rw [scheduled.symbols first hfirst b hb, scheduled.symbols second hsecond b (heq ▸ hb)]

def unlit : Material :=
  let start : Material := { name := "camera" }
  { ((start.addBlock "camera" (.input (.ofSystem .cameraPosition))).addBlock "vertex"
      .vertexOutput).addBlock "fragment" (.fragmentOutput {}) with
    roots := ⟨[⟨2⟩], [⟨3⟩]⟩ }

/-- Both stages read the position of the camera. -/
def camera : Material :=
  { unlit with graph := (unlit.graph.link ⟨⟨1⟩, 0⟩ ⟨⟨2⟩, 0⟩).link ⟨⟨1⟩, 0⟩ ⟨⟨3⟩, 1⟩ }

theorem reachable_camera : camera.Reachable := by
  have blocks : ({ unlit with roots := {} } : Material).Reachable :=
    .addBlock "fragment" (.fragmentOutput {}) (.addBlock "vertex" .vertexOutput (.addBlock "camera"
      (.input (.ofSystem .cameraPosition)) (.new "camera" {} 1) nofun) nofun) nofun
  have rooted : unlit.Reachable :=
    .addRoot (.addRoot blocks
      (show addRoot _ ⟨2⟩ = .ok { unlit with roots := ⟨[⟨2⟩], []⟩ } from rfl))
      (show addRoot _ ⟨3⟩ = .ok unlit from rfl)
  exact rooted.connectAll [(⟨⟨1⟩, 0⟩, ⟨⟨2⟩, 0⟩), (⟨⟨1⟩, 0⟩, ⟨⟨3⟩, 1⟩)]
    camera.graph (by cbv)

/-- The calls of the two stages. What the second one meets again is found beforehand, in the graph
that the walks leave. -/
theorem emission_camera : ∃ e c, camera.emission = .ok e ∧
    finish { camera with pass := camera.pass.next } e = .ok c ∧
    (e.calls.map fun q => (q.block, q.stage)) =
      [(⟨1⟩, .vertex), (⟨2⟩, .vertex), (⟨1⟩, .fragment), (⟨3⟩, .fragment)] ∧
    c.vertex.uniforms = [⟨"u_cameraPosition", .value .vector3⟩] := by
  have ongoing := steady_unwritten reachable_camera.wellFormed.graph
  have nodes : camera.emission = camera.unwritten.run [⟨2⟩, ⟨1⟩] [⟨1⟩, ⟨3⟩] := by
    unfold emission emit
    rfl
  have met : camera.prepare.state.graph.gather [⟨1⟩, ⟨3⟩] = [⟨1⟩, ⟨3⟩] := by cbv
  have stages : ((camera.unwritten.buildAll .vertex [⟨2⟩, ⟨1⟩]).toOption.any fun e₁ =>
      (({ e₁.shareDeclarations with
          built := e₁.built.filter fun id => !Emission.isDual e₁.graph [⟨1⟩, ⟨3⟩] id } :
        Emission).buildAll .fragment [⟨1⟩, ⟨3⟩]).toOption.any fun e =>
          (finish { camera with pass := camera.pass.next } e).toOption.any fun c =>
            (e.calls.map fun q => (q.block, q.stage)) ==
              [(⟨1⟩, .vertex), (⟨2⟩, .vertex), (⟨1⟩, .fragment), (⟨3⟩, .fragment)] &&
            c.vertex.uniforms == [⟨"u_cameraPosition", .value .vector3⟩]) = true := by
    decide +kernel
  obtain ⟨e₁, h₁, rest⟩ := exists_ok_of_any stages
  obtain ⟨e, h₂, ended⟩ := exists_ok_of_any rest
  obtain ⟨c, hc, found⟩ := exists_ok_of_any ended
  rw [Bool.and_eq_true, beq_iff_eq, beq_iff_eq] at found
  have run := Emission.run_eq ongoing h₁ [⟨1⟩, ⟨3⟩]
  rw [met, h₂] at run
  exact ⟨e, c, nodes.trans run, hc, found⟩

theorem camera_schedule :
    camera.Reachable ∧ ∃ c m', camera.build = (.ok c, m') ∧
      ∃ e, camera.emission = .ok e ∧
        (e.calls.map fun q => (q.block, q.stage)) =
          [(⟨1⟩, .vertex), (⟨2⟩, .vertex), (⟨1⟩, .fragment), (⟨3⟩, .fragment)] ∧
        ∀ first ∈ e.calls, ∀ second ∈ e.calls, first.block = second.block →
          first.stage = .vertex → second.stage = .fragment →
          second.outputs.map Slot.symbol = first.outputs.map Slot.symbol := by
  obtain ⟨e, c, he, hc, calls, -⟩ := emission_camera
  have pass : camera.runPass.1 = .ok c := runPass_eq_ok (by decide +kernel) he hc
  have build : camera.build = (.ok c, camera.runPass.2) := Prod.ext pass rfl
  obtain ⟨e', he', -, -, -, -, symbols⟩ := build_schedule reachable_camera build
  cases he.symm.trans he'
  exact ⟨reachable_camera, c, _, build, e, he, calls, symbols⟩

end Material

end ShaderGraph
