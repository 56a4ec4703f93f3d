import ShaderGraph.Material.Basic
import ShaderGraph.Pass.Emission
import ShaderGraph.Pass.Preparation
/-!
A build pass over a material.

Missing roots, a repeated unique block and a teleport whose entry is gone end the pass with an
error. Every other problem is kept in the result (`CompiledGraph.errors`).
-/

namespace ShaderGraph.Material

/-- The shared part of a new pass. -/
def newLedger (m : Material) : Ledger :=
  { language := m.options.language, allowEmptyVertex := m.mode.allowsEmptyVertex }

/-- What both walks of a pass found: the blocks that each stage hands to the other. -/
structure Prepared where
  state : Preparation
  fromVertex : List BlockId
  fromFragment : List BlockId

/-- Walks from the roots of both stages, the vertex stage first. -/
def prepare (m : Material) : Prepared :=
  let start : Preparation :=
    { graph := m.graph, ledger := m.newLedger, autoConfigure := m.options.autoConfigure }
  let p := start.walk .vertex m.roots.vertex
  let q := p.andThen (·.walk .fragment m.roots.fragment)
  ⟨q, p.crossing, q.crossing⟩

/-- Adds the blocks of a list that another does not hold. -/
def mergeNodes (nodes more : List BlockId) : List BlockId :=
  more.foldl (fun ids id => pushNew id ids) nodes

/-- Writes the code of both stages from the given roots. -/
def emit (m : Material) (found : Prepared) (roots : Roots) : Except Emission.Halt Emission :=
  let draft (stage : Stage) : StageDraft :=
    { stage, language := m.options.language, comments := m.options.comments }
  let start : Emission :=
    { graph := found.state.graph, vertex := draft .vertex, fragment := draft .fragment
      ledger := found.state.ledger }
  start.run (mergeNodes roots.vertex found.fromFragment)
    (mergeNodes found.fromVertex roots.fragment)

/-- The result of a pass. -/
def finish (m : Material) (e : Emission) : Except CodeError CompiledGraph := do
  let vertex ← e.vertex.finish
  let fragment ← e.fragment.finish
  return { pass := m.pass, language := m.options.language, vertex, fragment,
           roster := e.ledger.roster, varyings := e.ledger.varyings, hints := e.ledger.hints,
           errors := e.ledger.errors }

/-- Stores the result of a pass. A successful pass forgets the programs of earlier ones. -/
def store (m : Material) (c : CompiledGraph) : Material :=
  { m with
    compiled := some c
    cache := if c.isSuccessful then m.cache.retainPass c.pass else m.cache }

/-- A pass over a material that has roots. -/
def runPass (m : Material) : Except MaterialError CompiledGraph × Material :=
  let m := { m with pass := m.pass.next }
  let found := m.prepare
  let m := { m with graph := found.state.graph, attached := found.state.attached }
  match found.state.fault with
  | some fault => (.error fault, { m with compiled := none })
  | none =>
    let roots := m.optimizers.foldl (fun r o => o.optimize m.graph r) m.roots
    match m.emit found roots with
    | .error halt => (.error (.graph halt.cause), { m with graph := halt.graph })
    | .ok e =>
      let m := { m with graph := e.graph }
      match m.finish e with
      | .error e => (.error (.code e), m)
      | .ok c => (.ok c, m.store c)

/-- Builds a material. -/
def build (m : Material) : Except MaterialError CompiledGraph × Material :=
  if m.roots.fragment.isEmpty then (.error .missingFragmentOutput, m)
  else if m.roots.vertex.isEmpty && !m.mode.allowsEmptyVertex then
    (.error .missingVertexOutput, m)
  else m.runPass

end ShaderGraph.Material
