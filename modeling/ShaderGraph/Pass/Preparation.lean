import ShaderGraph.Graph.Connect
import ShaderGraph.Pass.Fault
/-!
The first part of a pass: a walk from the roots of each stage that prepares every block it meets.

A block is met before the blocks that feed it. Meeting it starts its kind, connects what its kind
wishes for its free inputs, attaches it to the material, and takes away the symbols that an earlier
pass left on its sockets. Each walk also collects the blocks that the other stage has to build.

A walk ends at the first fault; what it did up to then stays.
-/

namespace ShaderGraph

/-- The first input block that serves a wish. -/
def Graph.serving? (g : Graph) (wish : AutoSource) : Option BlockId :=
  (g.blocks.find? fun b =>
    match b.kind with
    | .input i => i.satisfies b.name wish
    | _ => false).map Block.id

/-- The block that serves a wish, added to the graph if there is none. -/
def Graph.serve (g : Graph) (wish : AutoSource) : BlockId × Graph :=
  match g.serving? wish with
  | some id => (id, g)
  | none =>
    let (name, input) := InputBlock.ofAutoSource wish
    (g.freshId, g.insert name (.input input))

/-- Fulfils a wish of a block, unless the connection is refused. -/
def Graph.fulfil (g : Graph) (id : BlockId) (wish : AutoConnect) : Graph :=
  let (producer, g) := g.serve wish.source
  match g.connectNamed producer "output" id wish.input with
  | .ok g => g
  | .error _ => g

/-- The state of the walks that prepare a pass. -/
structure Preparation where
  graph : Graph
  ledger : Ledger
  /-- Whether wishes are fulfilled. -/
  autoConfigure : Bool
  /-- Blocks met in this pass, in the order in which they were first met. -/
  attached : List BlockId := []
  /-- Blocks met by the walk of the current stage. -/
  visited : List BlockId := []
  /-- Blocks met by a walk of this pass. -/
  prepared : List BlockId := []
  /-- Blocks that the other stage has to build as well. -/
  crossing : List BlockId := []
  fault : Option MaterialError := none

namespace Preparation

/-- Starts the kind of a block. -/
def start (p : Preparation) (block : Block) : Preparation :=
  let (kind, ledger) := block.kind.start p.ledger
  { p with
    graph := p.graph.modify block.id ({ · with kind })
    ledger
    prepared := pushNew block.id p.prepared }

/-- Fulfils the wishes of a block. -/
def fulfil (p : Preparation) (block : Block) : Preparation :=
  if p.autoConfigure then
    { p with graph := block.autoConfigure.foldl (·.fulfil block.id) p.graph }
  else p

/-- Whether a block of the same class is attached already. -/
def clashes (p : Preparation) (block : Block) : Bool :=
  block.kind.isUnique &&
    (p.attached.filterMap p.graph.get?).any fun other => other.className == block.className

/-- Attaches a block to the material; a second block of a unique kind is a fault. -/
def attach (p : Preparation) (id : BlockId) : Preparation :=
  if p.attached.contains id then p
  else match p.graph.find id with
    | .error e => { p with fault := some (.graph e) }
    | .ok block =>
      if p.clashes block then
        { p with fault := some (.duplicateUniqueBlock block.className block.name) }
      else { p with attached := p.attached ++ [id] }

/-- Takes away the symbols of the inputs. -/
def resetInputs (p : Preparation) (id : BlockId) : Preparation :=
  let reset (b : Block) : Block := { b with inputs := b.inputs.map InputSocket.reset }
  { p with graph := p.graph.modify id reset }

def resetOutputs (p : Preparation) (id : BlockId) : Preparation :=
  let reset (b : Block) : Block := { b with outputs := b.outputs.map OutputSocket.reset }
  { p with graph := p.graph.modify id reset }

/-- Whether the other stage has to build a producer too: one that belongs to both stages, and in
the fragment stage a vertex block that no walk has met. -/
def isCrossing (p : Preparation) (stage : Stage) (producer : BlockId) : Bool :=
  match p.graph.get? producer with
  | none => false
  | some b =>
    b.target == .vertexAndFragment ||
      (stage == .fragment && b.target == .vertex && !p.prepared.contains producer)

def noteCrossing (p : Preparation) (stage : Stage) (producer : BlockId) : Preparation :=
  if p.isCrossing stage producer then { p with crossing := pushNew producer p.crossing } else p

/-- Does a step unless there was a fault. -/
def andThen (p : Preparation) (step : Preparation → Preparation) : Preparation :=
  if p.fault.isSome then p else step p

/-- Prepares a block and the blocks that feed it, through at most `steps` blocks. -/
def visit (stage : Stage) : Nat → BlockId → Preparation → Preparation
  | 0, _, p => p
  | steps + 1, id, p =>
    if p.visited.contains id then p
    else
      let p := { p with visited := id :: p.visited }
      match p.graph.get? id with
      | none => p
      | some block =>
        (((p.start block).fulfil block).attach id).andThen fun p =>
          let p := p.resetInputs id
          let p := (p.graph.feeders id).foldl (fun p producer =>
            p.andThen fun p => visit stage steps producer (p.noteCrossing stage producer)) p
          p.andThen (·.resetOutputs id)

/-- The walk of one stage. No chain of feeding blocks is longer than the graph, one added leaf
included. -/
def walk (stage : Stage) (roots : List BlockId) (p : Preparation) : Preparation :=
  roots.foldl (fun p root => p.andThen fun p => visit stage (p.graph.blocks.length + 2) root p)
    { p with visited := [], crossing := [] }

end Preparation

end ShaderGraph
