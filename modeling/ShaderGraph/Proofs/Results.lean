import ShaderGraph.Proofs.Rooting
import ShaderGraph.Proofs.Standing
import ShaderGraph.Proofs.Typing

/-!
# The results of the stages are written

A pass notes that a stage has its result when it calls an output block, and complains if it has
not. The note does not say which output block it was, nor whether the block wrote anything. The
notes are right all the same: an output block is called for its own stage only
(`Material.target_of_calledIn`), and if the pass has no problems its inputs are connected and the
line that it leaves stands outside all regions (`Emission.Lined`). So a build without problems
assigns the color and, unless the material is a particle, the position, under all defines and with
all anchors filled (`Material.build_writes_results`).
-/

namespace ShaderGraph

/-! ## 1. Notes -/

def Ledger.written (l : Ledger) : Stage → Bool
  | .vertex => l.vertexWritten
  | .fragment => l.fragmentWritten

theorem Kind.isFinal_iff {k : Kind} : k.isFinal = true ↔
    k.className = "VertexOutputBlock" ∨ k.className = "FragmentOutputBlock" := by
  cases k with
  | math op => cases op <;> decide
  | _ => simp [isFinal, className]

theorem Block.isFinal_of_outline {b b' : Block} (h : b'.outline = b.outline) :
    b'.kind.isFinal = b.kind.isFinal := by
  have name : b'.kind.className = b.kind.className := className_of_outline h
  rw [Bool.eq_iff_iff, Kind.isFinal_iff, Kind.isFinal_iff, name]

namespace Emission

variable {e e' : Emission} {stage : Stage} {g : Graph} {l : Language} {T : BlockId → Prop}
  {empty : Bool}

/-- A call notes the result of its stage if its block is an output block, and nothing else. -/
theorem Placed.notes {id : BlockId} {b : Block} {s t : Site Kind} (h : Placed stage id e e' b s t)
    (stages : ∀ s, (e.draft s).stage = s) :
    e'.ledger.record.2 = (noteResult b stage e.ledger).record.2 := by
  have draft : s.draft.stage = stage := by
    rw [h.draft]
    exact (e.grows_draftFor b stage).stage.trans (stages stage)
  rw [h.record_eq, ← h.record, h.build]
  by_cases fog : stage = .vertex ∧ b.kind.isFog = true
  · obtain ⟨rfl, isFog⟩ := fog
    obtain ⟨f, kind⟩ := Kind.exists_fog isFog
    obtain ⟨-, position, -, -, hp, -⟩ := h.input (i := 0) (by rw [kind]; rfl)
    obtain ⟨-, view, -, -, hv, -⟩ := h.input (i := 1) (by rw [kind]; rfl)
    rcases Kind.build_fog (h.kind.trans kind) draft hp hv with ⟨-, -, ledger⟩ | ⟨-, -, ledger⟩ <;>
      rw [ledger]
    rfl
  · refine congrArg Prod.snd (Kind.build_wrote (fun _ (h : False) => h.elim) ?_).2
    intro f hk
    rw [draft]
    cases stage with
    | fragment => rfl
    | vertex => exact absurd ⟨rfl, by rw [← h.kind, hk]; rfl⟩ fog

/-- What is noted about the results: a stage has one if an output block was called for it. -/
structure Noting (g : Graph) (empty : Bool) (e : Emission) : Prop where
  stages : ∀ s, (e.draft s).stage = s
  empty : e.ledger.allowEmptyVertex = empty
  final : ∀ stage, e.ledger.written stage = true → ∃ q ∈ e.calls, q.stage = stage ∧
    ∃ b, g.get? q.block = some b ∧ b.kind.isFinal = true

theorem Noting.step (hs : Ongoing g l e) (hstep : Step l stage T e e')
    (h : Noting g empty e) : Noting g empty e' := by
  have written : ∀ {l l' : Ledger} {s}, l'.record.2 = l.record.2 → l'.written s = l.written s := by
    intro l l' s same
    cases s with
    | vertex => exact congrArg (fun r => r.2.1) same
    | fragment => exact congrArg (fun r => r.2.2) same
  refine ⟨fun s => (hstep.draft hs s).stage.trans (h.stages s), ?_, fun s noted => ?_⟩
  · rcases hstep.still_or_placed hs with still | ⟨id, b, s, t, placed⟩
    · exact (congrArg Prod.fst still.record).trans h.empty
    · refine (congrArg Prod.fst (placed.notes h.stages)).trans (Eq.trans ?_ h.empty)
      unfold noteResult
      split
      · cases stage <;> rfl
      · rfl
  · rcases hstep.still_or_placed hs with still | ⟨id, b, site, t, placed⟩
    · rw [still.calls]
      exact h.final s (written still.record ▸ noted)
    · rw [written (placed.notes h.stages)] at noted
      rw [placed.calls_eq]
      unfold noteResult at noted
      by_cases old : e.ledger.written s = true
      · obtain ⟨q, hq, found⟩ := h.final s old
        exact ⟨q, List.mem_append_left _ hq, found⟩
      -- the call has noted the result, so it is one of an output block for the stage
      obtain ⟨b₀, hb₀, outline⟩ := Graph.exists_get?_of_outlines hs.outlines.symm placed.before
      cases isFinal : b.kind.isFinal with
      | false =>
        rw [isFinal, if_neg Bool.false_ne_true] at noted
        exact absurd noted old
      | true =>
        rw [isFinal, if_pos rfl] at noted
        have here : stage = s := by cases stage <;> cases s <;> first | rfl | exact absurd noted old
        exact ⟨_, List.mem_append_right _ List.mem_cons_self, here, b₀, hb₀,
          (Block.isFinal_of_outline outline).trans isFinal⟩

/-- In an emission the notes are right. -/
theorem run_noting (hs : Ongoing g l e) (h : Noting g empty e)
    {vertexNodes fragmentNodes : List BlockId} (hrun : e.run vertexNodes fragmentNodes = .ok e') :
    Noting g empty e' := by
  refine run_lasts (fun hs hstep h => h.step hs hstep)
    (fun nodes _ first => ⟨?_, first.empty, first.final⟩) hs hrun h
  exact fun
    | .vertex => first.stages .vertex
    | .fragment => first.stages .fragment

end Emission

/-! ## 2. Builds -/

namespace Material

variable {m m' : Material} {c : CompiledGraph} {e : Emission}

theorem emission_noting (hg : m.graph.Proper) (he : m.emission = .ok e) :
    Emission.Noting m.prepare.state.graph m.mode.allowsEmptyVertex e := by
  obtain ⟨extension, names, ledger⟩ := extends_prepare hg
  have start : m.unwritten.ledger = m.prepare.state.ledger := rfl
  refine Emission.run_noting (steady_unwritten hg) ⟨?_, ?_, ?_⟩ he
  · exact fun
      | .vertex => rfl
      | .fragment => rfl
  · rw [start, ledger]
    rfl
  · intro stage noted
    rw [start, ledger] at noted
    cases stage <;> cases noted

/-- In a pass without problems an output block is called for each stage that has a result. -/
theorem exists_result (hm : m.Reachable) (hf : m.prepare.state.fault = none)
    (he : m.emission = .ok e) {stage : Stage} (noted : e.ledger.written stage = true) :
    ∃ q ∈ e.calls, q.stage = stage ∧ ∃ b, m.prepare.state.graph.get? q.block = some b ∧
      b.className = match stage with
        | .vertex => "VertexOutputBlock"
        | .fragment => "FragmentOutputBlock" := by
  obtain ⟨q, hq, hstage, b, hb, isFinal⟩ :=
    (emission_noting hm.wellFormed.graph he).final stage noted
  refine ⟨q, hq, hstage, b, hb, ?_⟩
  have name := Kind.isFinal_iff.mp isFinal
  have shape : b.kind.outputs = [] ∧ b.kind.isTeleportIn = false ∧ b.kind.isInput = false := by
    rcases name with name | name
    · rw [Kind.eq_vertexOutput name]
      exact ⟨rfl, rfl, rfl⟩
    · obtain ⟨f, kind⟩ := Kind.exists_fragmentOutput name
      rw [kind]
      exact ⟨rfl, rfl, rfl⟩
  have included := target_of_calledIn hm hf he ⟨q, hq, rfl, hstage⟩ hb shape.1 shape.2.1 shape.2.2
  rw [Block.target, Kind.target_eq shape.2.2] at included
  rcases name with name | name <;> rw [name] at included <;> cases stage <;>
    first | exact name | exact absurd included (by decide)

/-- A build without problems writes the results of the stages, whatever is defined and whatever the
anchors are filled with. Only a particle may have no position. -/
theorem build_writes_results (hm : m.Reachable) (h : m.build = (.ok c, m'))
    (clean : c.errors = []) :
    (∃ value, ∀ defines fills, ∃ before after, Segment.renders defines fills c.fragment.body =
      before ++ (c.language.color ++ " = " ++ value ++ ";\n") ++ after) ∧
    (m.mode ≠ .particle →
      ∃ value, ∀ defines fills, ∃ before after, Segment.renders defines fills c.vertex.body =
        before ++ (c.language.position ++ " = " ++ value ++ ";\n") ++ after) := by
  obtain ⟨hf, e, he, hc, -⟩ := build_eq_ok h
  have hw := hm.wellFormed
  obtain ⟨-, -, -, language, -, errors⟩ := finish_eq_ok hc
  rw [errors] at clean
  have lined := emission_lined hw.graph he
  have noting := emission_noting hw.graph he
  have parts := clean
  rw [Ledger.errors, List.append_eq_nil_iff, List.append_eq_nil_iff,
    List.append_eq_nil_iff] at parts
  obtain ⟨⟨⟨vertex, fragment⟩, -⟩, custom⟩ := parts
  rw [language, show c.fragment.body = e.fragment.code.root from body_finish hc .fragment,
    show c.vertex.body = e.vertex.code.root from body_finish hc .vertex]
  constructor
  · have noted : e.ledger.written .fragment = true := by
      by_contra missing
      rw [if_neg (show ¬e.ledger.fragmentWritten = true from missing)] at fragment
      cases fragment
    obtain ⟨q, hq, stage, b, hb, name⟩ := exists_result hm hf he noted
    obtain ⟨value, stands⟩ := (lined.left q hq b hb).color name custom
    rw [stage] at stands
    exact ⟨value, fun defines fills => stands defines fills trivial⟩
  · intro mode
    have noted : e.ledger.written .vertex = true := by
      by_contra missing
      have strict : m.mode.allowsEmptyVertex = false := beq_eq_false_iff_ne.mpr mode
      rw [noting.empty, strict, Bool.or_false,
        if_neg (show ¬e.ledger.vertexWritten = true from missing)] at vertex
      cases vertex
    obtain ⟨q, hq, stage, b, hb, name⟩ := exists_result hm hf he noted
    have linked : ∀ p ∈ b.inputs, p.isConnected = true := by
      intro p hp
      obtain ⟨i, hi⟩ := List.getElem?_of_mem hp
      have spec := ((regular_prepare hw.graph).fitted _ b hb).mem_inputs hi
      rw [Kind.eq_vertexOutput name] at spec
      have required : ∀ spec ∈ VertexOutput.inputs, spec.optional = false := by decide
      obtain ⟨s, hl⟩ := (emission_reporting hw hm.planted hf he).exists_link clean hq hb hi
        (required p.spec spec)
      rw [InputSocket.isConnected, hl]
      rfl
    obtain ⟨value, stands⟩ := (lined.left q hq b hb).position name linked
    rw [stage] at stands
    exact ⟨value, fun defines fills => stands defines fills trivial⟩

theorem stretched_writes_results :
    stretched.Reachable ∧ stretched.mode ≠ .particle ∧
      ∃ c m', stretched.build = (.ok c, m') ∧ c.errors = [] ∧
        (∃ value, ∀ defines fills, ∃ before after, Segment.renders defines fills c.fragment.body =
          before ++ (c.language.color ++ " = " ++ value ++ ";\n") ++ after) ∧
        ∃ value, ∀ defines fills, ∃ before after, Segment.renders defines fills c.vertex.body =
          before ++ (c.language.position ++ " = " ++ value ++ ";\n") ++ after := by
  have mode : stretched.mode ≠ .particle := by decide
  obtain ⟨c, m', h, clean⟩ := exists_build (m := stretched) (by decide +kernel)
  obtain ⟨color, position⟩ := build_writes_results reachable_stretched h clean
  exact ⟨reachable_stretched, mode, c, m', h, clean, color, position mode⟩

end Material

end ShaderGraph
