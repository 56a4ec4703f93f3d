import ShaderGraph.Graph.Typing
import ShaderGraph.Graph.Walk
import ShaderGraph.Pass.Fault
/-!
The second part of a pass: blocks write their code, stage by stage, each after the blocks that feed
it.

A value that is made in the vertex stage and read in the fragment stage travels through a varying.
Blocks that belong to both stages are built once in each of them. `Emission.calls` keeps the calls
in the order in which they were made, with what each block was given and what it left.
-/

namespace ShaderGraph

/-- A call by which a block wrote its code. -/
structure BuildCall where
  block : BlockId
  stage : Stage
  /-- What the block read. -/
  inputs : List Slot
  /-- Its outputs after the call. -/
  outputs : List Slot
deriving DecidableEq, Repr

/-- The state of a pass while code is written. -/
structure Emission where
  graph : Graph
  vertex : StageDraft
  fragment : StageDraft
  ledger : Ledger
  /-- Blocks that need no further call in the current stage. -/
  built : List BlockId := []
  calls : List BuildCall := []

namespace Emission

/-- Why an emission stopped, and the graph that it had come to. -/
structure Halt where
  cause : GraphError
  graph : Graph
deriving Repr

/-- A part that stops leaves the graph that it found. -/
def orHalt {α : Type} (e : Emission) : Except GraphError α → Except Halt α :=
  Except.mapError (⟨·, e.graph⟩)

/-- Gives a symbol to every output that has none. -/
def nameOutputs : Ledger → List OutputSocket → List OutputSocket × Ledger
  | l, [] => ([], l)
  | l, p :: rest =>
    let (p, l) :=
      if p.symbol.isEmpty then
        let (symbol, l) := l.freshVariable p.spec.name
        ({ p with symbol }, l)
      else (p, l)
    let (rest, l) := nameOutputs l rest
    (p :: rest, l)

/-- Gives symbols to the outputs of a block; input blocks choose their own. -/
def nameBlock (e : Emission) (block : Block) : Emission :=
  if block.kind.isInput then e
  else
    let (outputs, ledger) := nameOutputs e.ledger block.outputs
    { e with graph := e.graph.modify block.id ({ · with outputs }), ledger }

/-- The symbol of an output of a block. -/
def symbolOf (block : Block) (index : Nat) : String :=
  (block.outputs[index]?).elim "" OutputSocket.symbol

/-- Carries an output of the vertex stage over to the fragment stage; the first part is how the
fragment stage refers to it. -/
def carry (e : Emission) (source : SocketRef) : Except GraphError (String × Emission) := do
  let block ← e.graph.find source.block
  let symbol := symbolOf block source.index
  let name := "v_" ++ symbol
  let reference := e.fragment.language.varyingRef .fragment name
  if e.ledger.hasVarying name then return (reference, e)
  let decl : VaryingDecl := { name, type := e.graph.outputType source }
  let line := e.vertex.language.varyingRef .vertex name ++ " = " ++ symbol ++ ";\n"
  return (reference, { e with ledger := e.ledger.addVarying decl, vertex := e.vertex.push line })

/-- Whether a block was built in the vertex stage for good. -/
def staysInVertex (producer : Block) : Bool :=
  producer.builtIn == some .vertex && producer.target != .vertexAndFragment

/-- Whether the link from a producer to an input of a block of the fragment stage leaves the stage
in which the producer was built. -/
def switchesStage (producer consumer : Block) (socket : SocketSpec) : Bool :=
  let bits := producer.target.bits
  bits &&& producer.builtIn.elim 0 Stage.bits == 0 || bits &&& socket.target.bits == 0 ||
    (consumer.target != .vertexAndFragment && staysInVertex producer)

/-- Whether only a varying brings the value of a producer to the fragment stage. -/
def needsVarying (producer : Block) : Bool :=
  if producer.kind.isInput then producer.kind.isAttribute
  else producer.builtIn != some .fragment

/-- Lets an input of the fragment stage read its producer through a varying, where needed. -/
def route (e : Emission) (consumer : BlockId) (index : Nat) (producer : BlockId) :
    Except GraphError Emission := do
  let p ← e.graph.find producer
  let c ← e.graph.find consumer
  match c.inputs[index]? with
  | none => return e
  | some socket =>
    match socket.link with
    | none => return e
    | some source =>
      if switchesStage p c socket.spec && needsVarying p then
        let (symbol, e) ← e.carry source
        let enforce := fun socket : InputSocket => { socket with symbol, enforced := true }
        return { e with graph := e.graph.modify consumer (·.modifyInput index enforce) }
      else return e

/-- Whether a socket is looked at when its block is built for a stage. -/
def isProcessed (block : Block) (stage : Stage) (socket : SocketSpec) : Bool :=
  block.target == .neutral ||
    (socket.target.intersects block.target && socket.target.includes stage)

/-- Builds what feeds the inputs of a block, by `build`, and reports required inputs that are
free. -/
def feed (build : BlockId → Emission → Except Halt Emission) (stage : Stage)
    (block : Block) : List (InputSocket × Nat) → Emission → Except Halt Emission
  | [], e => .ok e
  | (socket, index) :: rest, e =>
    match socket.link with
    | none =>
      let missing : UnconnectedInput := ⟨socket.spec.name, block.name, block.className⟩
      feed build stage block rest
        (if socket.spec.optional then e
        else { e with ledger := e.ledger.reportUnconnected missing })
    | some link =>
      if isProcessed block stage socket.spec && link.block != block.id then do
        let e ← build link.block e
        let e ← if stage = .fragment then e.orHalt (e.route block.id index link.block) else pure e
        feed build stage block rest e
      else feed build stage block rest e

/-- What a block reads from a socket, and the problem with it, if any. A socket that reads a varying
takes it as it is. -/
def inputSlot (g : Graph) (block : Block) (socket : InputSocket) (index : Nat) :
    Except GraphError (Slot × Option String) := do
  let type := g.inputType ⟨block.id, index⟩
  let slot (symbol : String) : Slot := ⟨socket.spec.name, type, symbol, socket.isConnected⟩
  if socket.enforced then return (slot socket.symbol, none)
  match socket.link with
  | none => return (slot "", none)
  | some source =>
    let found := g.outputType source
    let producer ← g.find source.block
    let problem :=
      if socket.spec.accepts found then none
      else some (block.name ++ "[" ++ block.className ++ "]: input " ++ socket.spec.name ++
        " cannot accept a value of type " ++ found.name)
    return (slot (symbolOf producer source.index), problem)

/-- What a block reads from its sockets; problems go to the ledger. -/
def inputSlots (g : Graph) (block : Block) :
    List (InputSocket × Nat) → Ledger → Except GraphError (List Slot × Ledger)
  | [], l => .ok ([], l)
  | (socket, index) :: rest, l => do
    let (slot, problem) ← inputSlot g block socket index
    let (slots, l) ← inputSlots g block rest (problem.elim l l.addError)
    return (slot :: slots, l)

def outputSlots (g : Graph) (block : Block) : List Slot :=
  block.outputs.zipIdx.map fun (socket, index) =>
    ⟨socket.spec.name, g.outputType ⟨block.id, index⟩, socket.symbol, socket.isConnected⟩

/-- What comes out of a teleport: the value that its entry reads. -/
def teleportSlot (e : Emission) (stage : Stage) (entry : BlockId) :
    Except GraphError (Slot × Emission) := do
  let block ← e.graph.find entry
  let type := e.graph.inputType ⟨entry, 0⟩
  match block.inputs with
  | [] => return (⟨"entry", .float, "", false⟩, e)
  | socket :: _ =>
    match socket.link with
    | none => return (⟨"entry", type, "", false⟩, e)
    | some source =>
      let producer ← e.graph.find source.block
      if stage = .fragment ∧ staysInVertex producer ∧
          (!producer.kind.isInput || producer.kind.isAttribute) then
        let (symbol, e) ← e.carry source
        return (⟨"entry", type, symbol, true⟩, e)
      let symbol := if socket.enforced then socket.symbol else symbolOf producer source.index
      return (⟨"entry", type, symbol, true⟩, e)

/-- The slot of the teleport that comes out at a block, after what feeds it is built. -/
def teleport (build : BlockId → Emission → Except Halt Emission) (stage : Stage)
    (block : Block) (e : Emission) : Except Halt (List Slot × Emission) :=
  match block.kind.teleportEntry with
  | none => .ok ([], e)
  | some entry => do
    let e ← build entry e
    let (slot, e) ← e.orHalt (e.teleportSlot stage entry)
    return ([slot], e)

/-- Notes that a block writes the result of a stage. -/
def noteResult (block : Block) (stage : Stage) (l : Ledger) : Ledger :=
  if block.kind.isFinal then
    match stage with
    | .vertex => { l with vertexWritten := true }
    | .fragment => { l with fragmentWritten := true }
  else l

/-- The draft of a stage, with the name of the block as a comment. -/
def draftFor (e : Emission) (block : Block) (stage : Stage) : StageDraft :=
  let draft := match stage with
    | .vertex => e.vertex
    | .fragment => e.fragment
  if block.kind.isInput then draft else draft.comment block.name

/-- The block after its call. -/
def close (stage : Stage) (kind : Kind) (outputs : List Slot) (block : Block) : Block :=
  { block with
    kind
    outputs :=
      block.outputs.zipWith (fun socket slot => { socket with symbol := slot.symbol }) outputs
    builtIn := some stage }

/-- Calls the build of a block, with the values of a teleport behind its inputs. A build that fails
leaves a problem in the ledger and counts as done. -/
def call (e : Emission) (stage : Stage) (id : BlockId) (teleported : List Slot) :
    Except GraphError Emission := do
  let block ← e.graph.find id
  let (slots, ledger) ← inputSlots e.graph block block.inputs.zipIdx e.ledger
  let inputs := slots ++ teleported
  let site : Site Kind :=
    { kind := block.kind, block := id, blockName := block.name, className := block.className
      inputs
      outputs := outputSlots e.graph block
      draft := e.draftFor block stage
      ledger := noteResult block stage ledger
      vertexDraft := match stage with
        | .vertex => none
        | .fragment => some e.vertex }
  let (result, after) := Kind.build.run.run site
  let ledger := match result with
    | .ok _ => after.ledger
    | .error fault =>
      after.ledger.addError (block.name ++ "[" ++ block.className ++ "]: " ++ fault.message)
  let made : BuildCall := ⟨id, stage, inputs, after.outputs⟩
  let e : Emission := { e with
    graph := e.graph.modify id (close stage after.kind after.outputs)
    ledger
    built := id :: e.built
    calls := e.calls ++ [made] }
  return match stage with
    | .vertex => { e with vertex := after.draft }
    | .fragment => { e with fragment := after.draft, vertex := after.vertexDraft.getD e.vertex }

/-- Builds a block after everything that feeds it, through at most `steps` blocks. -/
def build (stage : Stage) : Nat → BlockId → Emission → Except Halt Emission
  | 0, _, e => .ok e
  | steps + 1, id, e =>
    match e.graph.get? id with
    | none => .ok e
    | some block =>
      if e.built.contains id then .ok e
      else do
        let e ← feed (build stage steps) stage block block.inputs.zipIdx (e.nameBlock block)
        let (teleported, e) ← teleport (build stage steps) stage block e
        if e.built.contains id then return e
        e.orHalt (e.call stage id teleported)

/-- Builds blocks and everything that feeds them. No chain of feeding blocks is longer than the
graph. -/
def buildAll (stage : Stage) (nodes : List BlockId) (e : Emission) : Except Halt Emission :=
  nodes.foldlM (fun e id => build stage (e.graph.blocks.length + 1) id e) e

/-- The fragment stage sees every uniform and every constant of the vertex stage. -/
def shareDeclarations (e : Emission) : Emission :=
  let uniforms := e.vertex.uniforms.foldl (fun ds d => declare UniformDecl.name d ds)
    e.fragment.uniforms
  let constants := e.vertex.constants.foldl (fun ds d => declare NamedText.name d ds)
    e.fragment.constants
  { e with fragment := { e.fragment with uniforms, constants } }

/-- Whether a block belongs to both stages and is among those reached. -/
def isDual (g : Graph) (reached : List BlockId) (id : BlockId) : Bool :=
  ((g.get? id).any fun b => b.target == .vertexAndFragment) && reached.contains id

/-- Lets the blocks that belong to both stages be built again. -/
def reopenDual (nodes : List BlockId) (e : Emission) : Emission :=
  let reached := e.graph.gather nodes
  { e with built := e.built.filter fun id => !isDual e.graph reached id }

/-- Both stages, the vertex stage first. -/
def run (vertexNodes fragmentNodes : List BlockId) (e : Emission) : Except Halt Emission := do
  let e ← e.buildAll .vertex vertexNodes
  (e.shareDeclarations.reopenDual fragmentNodes).buildAll .fragment fragmentNodes

end Emission

end ShaderGraph
