import ShaderGraph.Proofs.Roster

/-!
# What a pass leaves in a graph

A pass gives symbols to sockets and names to kinds, and notes in which stage a block was built. All
of this stays when the pass is over. `Graph.bare` is a graph without such leftovers: blocks, links,
endpoints and settings. Writing code changes nothing else (`Emission.bare_run`).

The next pass takes the symbols and the uniforms away from every block that it meets
(`Preparation.fresh_walk`). The other leftovers stay, and are written before they are read.
-/

namespace ShaderGraph

open List ShaderGraph.Graph Block Emit

/-! ## 1. Blocks and graphs -/

theorem Kind.bare_start (k : Kind) (l : Ledger) : (k.start l).1.bare = k.bare := by
  cases k <;> rfl

namespace Block

variable {b b' : Block}

/-- A block without what passes left on it. -/
def bare (b : Block) : Block :=
  { b with
    kind := b.kind.bare
    inputs := b.inputs.map InputSocket.reset
    outputs := b.outputs.map OutputSocket.reset
    builtIn := none }

theorem outline_bare (b : Block) : b.bare.outline = b.outline := by
  obtain ⟨traits, outputs, target, entry⟩ := b.kind.alike_bare
  simp only [outline, bare, Block.target, traits, outputs, target, entry, map_map]
  rfl

theorem bare_of_outline (h : b'.outline = b.outline) (comments : b'.comments = b.comments)
    (kind : b'.kind.bare = b.kind.bare) : b'.bare = b.bare := by
  have id : b'.id = b.id := congrArg Outline.id h
  have name : b'.name = b.name := congrArg Outline.name h
  have inputs := congrArg (fun o => o.inputs.map fun p =>
    ({ spec := p.1, link := p.2 } : InputSocket)) h
  have outputs :=
    congrArg (fun o => o.outputs.map fun p => ({ spec := p.1, endpoints := p.2 } : OutputSocket)) h
  simp only [outline, map_map] at inputs outputs
  rw [bare, bare, id, name, comments, kind]
  exact congrArg₂ (fun inputs outputs => (⟨b.id, b.name, b.comments, b.kind.bare, inputs, outputs,
    none⟩ : Block)) inputs outputs

end Block

namespace Graph

variable {g g' : Graph} {id x : BlockId} {b : Block}

def bare (g : Graph) : Graph := { g with blocks := g.blocks.map Block.bare }

theorem get?_bare (g : Graph) (x : BlockId) : g.bare.get? x = (g.get? x).map Block.bare :=
  get?_map g (by intro; rfl) x

theorem outlines_of_bare (h : g'.bare = g.bare) : g'.outlines = g.outlines := by
  have view : ∀ g : Graph, g.outlines = g.bare.outlines := by
    intro g
    simp only [outlines, bare, map_map]
    exact map_congr_left fun b _ => b.outline_bare.symm
  rw [view g', h, ← view g]

theorem nextId_of_bare (h : g'.bare = g.bare) : g'.nextId = g.nextId := by
  have same : g'.bare.nextId = g.bare.nextId := congrArg Graph.nextId h
  exact same

theorem bare_modify (hd : g.ids.Nodup) {f : Block → Block} (hb : g.get? id = some b)
    (keeps : (f b).bare = b.bare) : (g.modify id f).bare = g.bare := by
  exact congrArg (fun blocks => (⟨blocks, g.nextId⟩ : Graph)) (map_blocks_modify hd hb keeps)

end Graph

/-! ## 2. Emissions -/

namespace Emission

variable {e e' : Emission} {stage : Stage} {id : BlockId} {g : Graph} {l : Language}
  {T : BlockId → Prop}

theorem bare_call (hs : Ongoing g l e) {teleported : List Slot}
    (h : e.call stage id teleported = .ok e') : e'.graph.bare = e.graph.bare := by
  obtain ⟨b, b', made, called⟩ := hs.called h
  obtain ⟨c, slots, ledger, hc, -, graph, -⟩ := call_eq_ok h
  cases called.before.symm.trans hc
  have closed := called.get? id
  rw [graph, get?_modify, if_pos rfl, if_pos rfl, hc] at closed
  cases closed
  rw [graph]
  exact bare_modify hs.distinct hc
    (bare_of_outline called.outline rfl (Kind.bare_build _))

theorem Step.bare (hs : Ongoing g l e) (h : Step l stage T e e') :
    e'.graph.bare = e.graph.bare := by
  have distinct := hs.distinct
  cases h with
  | report u => rfl
  | name hb =>
    rcases nameBlock_eq hb with ⟨-, same⟩ | ⟨hin, changed⟩
    · rw [same]
    · rw [changed]
      exact bare_modify distinct hb
        (bare_of_outline (advances_named (l := l) e.ledger hin).outline rfl rfl)
  | @route e₁ consumer c producer i p source symbol hstage hT hconsumer hi hl hp hbuilt hcross
      hcarried =>
    rw [← hcarried.graph] at hconsumer distinct ⊢
    exact bare_modify distinct hconsumer
      (bare_of_outline (advances_enforced (l := l) i symbol c).outline rfl rfl)
  | carry hstage hcarried => rw [hcarried.graph]
  | call hT hid hfed hlabel htele hcall => exact bare_call hs hcall

/-- Writing the code of both stages leaves symbols, names and stages, and nothing else. -/
theorem bare_run (hs : Ongoing g l e) {vertexNodes fragmentNodes : List BlockId}
    (h : e.run vertexNodes fragmentNodes = .ok e') : e'.graph.bare = e.graph.bare :=
  run_lasts (P := fun e' => e'.graph.bare = e.graph.bare)
    (fun hs hstep same => (hstep.bare hs).trans same) (fun _ _ same => same) hs h rfl

end Emission

/-! ## 3. Walks -/

/-- The uniform that a pass gave to the kind. -/
def Kind.uniform : Kind → String
  | .input b => b.uniformName
  | _ => ""

theorem Kind.uniform_start (k : Kind) (l : Ledger) : (k.start l).1.uniform = "" := by
  cases k <;> rfl

/-- A block without the leftovers that a pass reads. -/
structure Block.Fresh (b : Block) : Prop where
  kind : b.kind.uniform = ""
  inputs : b.inputs.map InputSocket.reset = b.inputs
  outputs : b.outputs.map OutputSocket.reset = b.outputs

namespace Block

theorem lasting_kind : Lasting fun b => b.kind.uniform = "" where
  start b l _ := b.kind.uniform_start l
  resetInputs _ h := h
  resetOutputs _ h := h
  setLink _ _ _ h := h
  addEndpoint _ _ _ h := h
  leaf _ source := by cases source <;> rfl

theorem lasting_inputs : Lasting fun b => b.inputs.map InputSocket.reset = b.inputs where
  start _ _ h := h
  resetInputs b _ := by
    rw [map_map]
    rfl
  resetOutputs _ h := h
  setLink b i link h := by
    have same : (b.setLink i link).inputs.map InputSocket.reset =
        (b.inputs.map InputSocket.reset).modify i fun p => { p with link } :=
      map_modify _ (by intro; rfl) b.inputs i
    rw [same, h]
    rfl
  addEndpoint _ _ _ h := h
  leaf _ _ := rfl

theorem lasting_outputs : Lasting fun b => b.outputs.map OutputSocket.reset = b.outputs where
  start _ _ h := h
  resetInputs _ h := h
  resetOutputs b _ := by
    rw [map_map]
    rfl
  setLink _ _ _ h := h
  addEndpoint b i endpoint h := by
    have same : (b.addEndpoint i endpoint).outputs.map OutputSocket.reset =
        (b.outputs.map OutputSocket.reset).modify i
          fun p => { p with endpoints := p.endpoints ++ [endpoint] } :=
      map_modify _ (by intro; rfl) b.outputs i
    rw [same, h]
    rfl
  leaf _ _ := rfl

end Block

namespace Preparation

variable {P : Block → Prop} {p q : Preparation} {stage : Stage} {id x : BlockId} {block : Block}

/-- The three parts of being fresh last, each by itself. -/
theorem fresh_of_parts {g g' : Graph}
    (lasts : ∀ {P : Block → Prop}, Block.Lasting P → g.At P x → g'.At P x)
    (h : g.At Block.Fresh x) : g'.At Block.Fresh x := fun b hb =>
  ⟨lasts lasting_kind (fun c hc => (h c hc).kind) b hb,
    lasts lasting_inputs (fun c hc => (h c hc).inputs) b hb,
    lasts lasting_outputs (fun c hc => (h c hc).outputs) b hb⟩

/-- A block is fresh at the end of its visit: its kind was started, then its inputs were reset, and
at last its outputs. -/
theorem fresh_met {ids : List BlockId}
    (w : Walks stage (.all true ids) ((p.meet block).resetInputs block.id) q) :
    (q.resetOutputs block.id).graph.At Block.Fresh block.id := by
  let r := (p.meet block).resetInputs block.id
  have onward : ∀ {P : Block → Prop}, Block.Lasting P → r.graph.At P block.id →
      (q.resetOutputs block.id).graph.At P block.id :=
    fun hP h =>
      have kept : Stable stage _ := stable_at hP _
      kept.resetOutputs block.id (kept.walks w h)
  intro b hb
  constructor
  case kind =>
    have started : (p.meet block).graph.At (fun b => b.kind.uniform = "") block.id :=
      at_meet_of_start lasting_kind
        (at_modify_self (by intro; rfl) fun _ => block.kind.uniform_start _)
    have reset : r.graph.At (fun b => b.kind.uniform = "") block.id :=
      started.modify _ (by intro; rfl) fun b _ => lasting_kind.resetInputs b
    exact onward lasting_kind reset b hb
  case inputs =>
    have reset : r.graph.At (fun b => b.inputs.map InputSocket.reset = b.inputs) block.id :=
      at_modify_self (by intro; rfl) fun b => by rw [map_map]; rfl
    exact onward lasting_inputs reset b hb
  case outputs =>
    refine at_modify_self (P := fun b => b.outputs.map OutputSocket.reset = b.outputs)
      (by intro; rfl) (fun b => ?_) b hb
    rw [map_map]
    rfl

/-- A walk without a fault leaves every block fresh that it meets. -/
theorem Walks.fresh {task : Task} (w : Walks stage task p q) (hp : p.graph.Proper)
    (hf : q.fault = none) : ∀ x ∈ q.visited, x ∈ p.visited ∨ q.graph.At Block.Fresh x := by
  induction w with
  | again | nil | halted => exact fun x hx => .inl hx
  | missing _ hb =>
    intro x hx
    rcases mem_cons.mp hx with rfl | hx
    · refine .inr fun b hb' => ?_
      cases hb.symm.trans hb'
    · exact .inl hx
  | blocked _ _ blocked => exact absurd hf blocked
  | @meet id p q block hid hb _ w ih =>
    obtain rfl := id_of_get? hb
    have met := widens_meet hp hb hid
    have reset := widens_resetInputs met.graph.proper block.id
    have carried := andThen_of_fault hf
    rw [carried] at hf ⊢
    intro x hx
    rcases ih reset.graph.proper hf x hx with hx | fresh
    · change x ∈ (p.meet block).visited at hx
      rw [visited_meet] at hx
      rcases mem_cons.mp hx with rfl | hx
      · exact .inr (fresh_met w)
      · exact .inl hx
    · refine .inr (fresh_of_parts (fun hP => ?_) fresh)
      have kept : Stable stage _ := stable_at hP x
      exact kept.resetOutputs block.id
  | @next feeds id rest p q r _ w w' first others =>
    obtain ⟨crossing, same⟩ := note_eq p stage feeds id
    rw [same] at w first
    have turned := (w.widens hp).graph.proper
    intro x hx
    rcases others turned hf x hx with hx | fresh
    · exact (first hp ((w'.widens turned).fault hf) x hx).imp_right
        (fresh_of_parts fun hP => (stable_at hP x).walks w')
    · exact .inr fresh

theorem fresh_walk {roots : List BlockId} (hp : p.graph.Proper)
    (hf : (p.walk stage roots).fault = none) :
    ∀ x ∈ (p.walk stage roots).visited, (p.walk stage roots).graph.At Block.Fresh x := fun x hx =>
  ((walks_walk stage roots hp).1.fresh hp hf x hx).resolve_left not_mem_nil

end Preparation

end ShaderGraph
