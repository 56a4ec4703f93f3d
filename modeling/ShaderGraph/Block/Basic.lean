import ShaderGraph.Block.Kind
/-!
A block of a graph: its identity, its sockets and its kind.
-/

namespace ShaderGraph

/-- A node of a graph. -/
structure Block where
  id : BlockId
  name : String
  comments : String := ""
  kind : Kind
  inputs : List InputSocket
  outputs : List OutputSocket
  /-- The stage that the last build of the block was for. -/
  builtIn : Option Stage := none
deriving DecidableEq, Repr

namespace Block

/-- A block with the sockets of its kind and nothing connected. -/
def new (id : BlockId) (name : String) (kind : Kind) : Block :=
  { id, name, kind
    inputs := kind.inputs.map fun spec => { spec }
    outputs := kind.outputs.map fun spec => { spec } }

def className (b : Block) : String := b.kind.className

def target (b : Block) : Target := b.kind.target

/-- The place of the first input of a name. -/
def inputIndex? (b : Block) (name : String) : Option Nat :=
  b.inputs.findIdx? fun p => p.spec.name == name

def outputIndex? (b : Block) (name : String) : Option Nat :=
  b.outputs.findIdx? fun p => p.spec.name == name

def input? (b : Block) (name : String) : Option InputSocket :=
  b.inputs.find? fun p => p.spec.name == name

def output? (b : Block) (name : String) : Option OutputSocket :=
  b.outputs.find? fun p => p.spec.name == name

/-- Whether an input of a name is there and free. -/
def isFree (b : Block) (name : String) : Bool :=
  b.inputs.any fun p => p.spec.name == name && !p.isConnected

/-- The wishes of the block for its free inputs. -/
def autoConfigure (b : Block) : List AutoConnect := b.kind.autoConfigure b.isFree

/-- The blocks that feed this one: producers in the order of the inputs, then the teleport entry. -/
def feeders (b : Block) : List BlockId :=
  (b.inputs.filterMap fun p => p.link.map SocketRef.block).filter (· != b.id) ++
    b.kind.teleportEntry.toList

def modifyInput (b : Block) (index : Nat) (f : InputSocket → InputSocket) : Block :=
  { b with inputs := b.inputs.modify index f }

def modifyOutput (b : Block) (index : Nat) (f : OutputSocket → OutputSocket) : Block :=
  { b with outputs := b.outputs.modify index f }

/-- Sets or breaks the link of an input. -/
def setLink (b : Block) (index : Nat) (link : Option SocketRef) : Block :=
  b.modifyInput index fun p => { p with link }

def addEndpoint (b : Block) (index : Nat) (endpoint : SocketRef) : Block :=
  b.modifyOutput index fun p => { p with endpoints := p.endpoints ++ [endpoint] }

def removeEndpoint (b : Block) (index : Nat) (endpoint : SocketRef) : Block :=
  b.modifyOutput index fun p => { p with endpoints := p.endpoints.filter (· != endpoint) }

/-- Gives up everything that the block holds and every link. -/
def dispose (b : Block) : Block :=
  { b with
    kind := b.kind.dispose
    inputs := b.inputs.map fun p => { p.reset with link := none }
    outputs := b.outputs.map fun p => { p.reset with endpoints := [] } }

end Block

end ShaderGraph
