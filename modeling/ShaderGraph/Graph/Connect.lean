import ShaderGraph.Graph.Walk
/-!
Connecting blocks. A link or a teleport that would let a block feed itself is refused.
-/

namespace ShaderGraph.Graph

/-- The faults of a link between two sockets that exist, the first that applies. -/
def linkFault? (g : Graph) (source target : SocketRef) (producer consumer : Block)
    (output : OutputSocket) (input : InputSocket) : Option GraphError :=
  if input.isConnected then some (.alreadyConnected input.spec.name consumer.name)
  else if source.block = target.block then some (.selfLink consumer.name)
  else if output.spec.type.isConcrete && !input.spec.accepts output.spec.type then
    some (.typeMismatch producer.name output.spec.name output.spec.type consumer.name
      input.spec.name input.spec.type)
  else if g.reaches source.block target.block then
    some (.cycle producer.name output.spec.name consumer.name input.spec.name)
  else none

/-- Lets an output feed an input. -/
def link (g : Graph) (source target : SocketRef) : Graph :=
  (g.modify target.block (·.setLink target.index (some source))).modify source.block
    (·.addEndpoint source.index target)

/-- Connects an output to an input that is free, takes its type, and closes no cycle. -/
def connect (g : Graph) (source target : SocketRef) : Except GraphError Graph := do
  let producer ← g.find source.block
  match producer.outputs[source.index]? with
  | none => .error (.noOutput source.block source.index)
  | some output =>
    let consumer ← g.find target.block
    match consumer.inputs[target.index]? with
    | none => .error (.noInput target.block target.index)
    | some input =>
      match g.linkFault? source target producer consumer output input with
      | some fault => .error fault
      | none => .ok (g.link source target)

/-- Connects sockets by name. -/
def connectNamed (g : Graph) (source : BlockId) (output : String) (target : BlockId)
    (input : String) : Except GraphError Graph := do
  let producer ← g.find source
  match producer.outputIndex? output with
  | none => .error (.noOutputNamed source output)
  | some i =>
    let consumer ← g.find target
    match consumer.inputIndex? input with
    | none => .error (.noInputNamed target input)
    | some j => g.connect ⟨source, i⟩ ⟨target, j⟩

/-- The fault of a teleport into a block. -/
def entryFault? (g : Graph) (out entry : BlockId) : Option GraphError :=
  match g.get? entry with
  | none => some (.missingBlock entry)
  | some b =>
    if !b.kind.isTeleportIn then some (.notTeleportEntry entry)
    else if g.reaches entry out then some (.teleportCycle out entry)
    else none

/-- Lets a teleport come out at a block, or takes its entry away. -/
def setTeleportEntry (g : Graph) (out : BlockId) (entry : Option BlockId) :
    Except GraphError Graph := do
  match entry.bind (g.entryFault? out) with
  | some fault => .error fault
  | none =>
    let exit ← g.find out
    if entry.isSome && !exit.kind.isTeleportOut then .error (.notTeleportExit exit.name)
    else .ok (g.modify out fun b => { b with kind := b.kind.setTeleportEntry entry })

end ShaderGraph.Graph
