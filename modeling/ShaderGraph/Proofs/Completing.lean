import ShaderGraph.Proofs.Nesting
import ShaderGraph.Proofs.Passes

/-!
# Passes that come to an end

An emission fails only where a teleport has lost its entry (`Emission.run_outcome`), and a stage
only where a region is left open.

* `Emission.Step.nesting`: a step closes the regions that it opens;
* `Material.build_outcomes`: a build leaves the material as it is, or it begins a pass of a number
  of its own, at whose end there is the result of that pass or none, or, where an entry is gone, the
  result of an earlier one.
-/

namespace ShaderGraph

open List ShaderGraph.Graph Emission CodeBuffer

namespace Emission

variable {e e' : Emission} {stage : Stage} {id : BlockId} {g : Graph} {l : Language}
  {T : BlockId → Prop} {source : SocketRef} {q b : Block} {p : InputSocket}

/-! ## 1. Every region is closed -/

theorem nesting_draftFor (e : Emission) (b : Block) (stage : Stage) :
    (e.draftFor b stage).code.nesting = (e.draft stage).code.nesting := by
  have comment : ∀ (d : StageDraft) (text : String),
      (d.comment text).code.nesting = d.code.nesting := by
    intro d text
    unfold StageDraft.comment
    split
    · exact nesting_pushText _ _
    · rfl
  cases stage <;> unfold draftFor draft <;> dsimp only <;> split
  · rfl
  · exact comment _ _
  · rfl
  · exact comment _ _

theorem names_outputSlots (g : Graph) (fitted : b.Fitted) :
    b.kind.outputs.map SocketSpec.name ⊆ (outputSlots g b).map Slot.name := by
  rw [← fitted.outputs, outputSlots, map_map]
  intro name hname
  obtain ⟨p, hp, rfl⟩ := mem_map.mp hname
  obtain ⟨i, hi⟩ := getElem?_of_mem hp
  exact mem_map.mpr ⟨(p, i), mk_mem_zipIdx_iff_getElem?.mpr hi, rfl⟩

/-- A block that is called closes its regions. The draft of the other stage gets declarations
only. -/
theorem nesting_call (hg : e.graph.Regular) {teleported : List Slot}
    (h : e.call stage id teleported = .ok e') (s : Stage) :
    (e'.draft s).code.nesting = (e.draft s).code.nesting := by
  by_cases hs : s = stage
  · obtain ⟨b, slots, l, hb, -, -, -, -, -, -, hdraft, -⟩ := call_eq_ok h
    rw [hs, hdraft, ← nesting_draftFor e b stage]
    exact Kind.nesting_build (s := e.site stage b (slots ++ teleported) l)
      (names_outputSlots e.graph (hg.fitted id b hb))
  · obtain ⟨b, b', made, called⟩ := call_spec hg.coherent.distinct (hg.fitted id) h
    cases stage with
    | vertex =>
      cases s with
      | vertex => exact absurd rfl hs
      | fragment => rw [draft, draft, called.fragment rfl]
    | fragment =>
      cases s with
      | fragment => exact absurd rfl hs
      | vertex =>
        rcases called.vertex rfl with same | ⟨decl, changed⟩
        · rw [draft, draft, same]
        · rw [draft, draft, changed]
          rfl

theorem Step.nesting (hs : Ongoing g l e) (h : Step l stage T e e') (s : Stage) :
    (e'.draft s).code.nesting = (e.draft s).code.nesting := by
  rcases h.quiet_or_calling hs with quiet | ⟨_, _, _, _, _, calling⟩
  · cases s with
    | fragment => rw [Emission.draft, quiet.fragment, Emission.draft]
    | vertex =>
      rcases quiet.vertex with same | ⟨-, line, pushed⟩
      · rw [Emission.draft, same, Emission.draft]
      · rw [Emission.draft, pushed, Emission.draft]
        exact nesting_pushText _ _
  · exact nesting_call hs.regular calling.call s

theorem nesting_run (hs : Ongoing g l e) {vertexNodes fragmentNodes : List BlockId}
    (h : e.run vertexNodes fragmentNodes = .ok e') (s : Stage) :
    (e'.draft s).code.nesting = (e.draft s).code.nesting := by
  refine run_lasts (P := fun e' => (e'.draft s).code.nesting = (e.draft s).code.nesting)
    (fun hs hstep same => (hstep.nesting hs s).trans same) (fun nodes _ same => ?_) hs h rfl
  cases s <;> exact same

end Emission

/-! ## 2. Builds -/

namespace Material

variable {m : Material} {e : Emission}

theorem exists_finish (hg : m.graph.Proper) (h : m.emission = .ok e) (n : Material) :
    ∃ c, n.finish e = .ok c := by
  have closed : ∀ s, (e.draft s).code.regions = [] := by
    intro s
    have same := nesting_run (steady_unwritten hg) h s
    rw [← nesting_eq_nil_iff, same]
    cases s <;> rfl
  have stage : ∀ s, ∃ compiled, (e.draft s).finish = .ok compiled := by
    intro s
    unfold StageDraft.finish CodeBuffer.segments
    simp only [closed s, isEmpty_nil, if_true]
    exact ⟨_, rfl⟩
  obtain ⟨vertex, hv⟩ := stage .vertex
  obtain ⟨fragment, hf⟩ := stage .fragment
  simp only [Emission.draft] at hv hf
  unfold finish
  simp only [hv, hf, Bind.bind, Except.bind]
  exact ⟨_, rfl⟩

/-- How a pass turns out. Where the walks find a fault the material has no result either; where the
emission comes to an entry that is gone, it keeps the one that it had. -/
inductive Turnout (m : Material) (r : Except MaterialError CompiledGraph × Material) : Prop
  | faulty (fault : MaterialError) : m.prepare.state.fault = some fault → r.1 = .error fault →
      r.2.compiled = none → m.Turnout r
  | stalled (x : BlockId) : m.prepare.state.fault = none → r.1 = .error (.graph (.missingBlock x)) →
      r.2.compiled = m.compiled → m.Turnout r
  | finished (c : CompiledGraph) : m.prepare.state.fault = none → r.1 = .ok c →
      r.2.compiled = some c → c.pass = m.pass.next → m.Turnout r

theorem runPass_outcomes (hg : m.graph.Proper) :
    m.runPass.2.pass = m.pass.next ∧ m.Turnout m.runPass := by
  rw [runPass_eq]
  split
  · rename_i fault hf
    exact ⟨rfl, .faulty fault hf rfl rfl⟩
  · rename_i hf
    cases he : m.emission with
    | error halt =>
      have outcome := emission_outcome hg
      rw [he] at outcome
      cases outcome
      exact ⟨rfl, .stalled _ hf rfl rfl⟩
    | ok e =>
      obtain ⟨c, hc⟩ := exists_finish hg he
        { m with
          pass := m.pass.next, graph := m.prepare.state.graph
          attached := m.prepare.state.attached }
      simp only [hc]
      refine ⟨rfl, .finished c hf rfl rfl ?_⟩
      obtain ⟨vertex, -, hc⟩ := bind_eq_ok_iff.mp hc
      obtain ⟨fragment, -, hc⟩ := bind_eq_ok_iff.mp hc
      rw [← Except.ok.inj hc]

/-- A build that begins no pass leaves the material alone. One that does gives it the next number.
-/
theorem build_outcomes (hg : m.graph.Proper) :
    (∃ fault, m.build = (.error fault, m)) ∨
      m.build.2.pass = m.pass.next ∧ m.Turnout m.build := by
  unfold build
  split
  · exact .inl ⟨_, rfl⟩
  · split
    · exact .inl ⟨_, rfl⟩
    · exact .inr (runPass_outcomes hg)

end Material

end ShaderGraph
