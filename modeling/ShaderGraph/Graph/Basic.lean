import ShaderGraph.Block.Basic
/-!
Graphs of blocks, in the order in which the blocks were added.

The graph hands out identities by counting, and an identity is never used again after its block is
gone. Links are kept on both sides: an input names the output that feeds it, an output names the
inputs it feeds.
-/

namespace ShaderGraph

/-- Why a change to a graph is refused. -/
inductive GraphError where
  | missingBlock (id : BlockId)
  | noOutput (id : BlockId) (index : Nat)
  | noInput (id : BlockId) (index : Nat)
  | noOutputNamed (id : BlockId) (name : String)
  | noInputNamed (id : BlockId) (name : String)
  | alreadyConnected (input block : String)
  | selfLink (block : String)
  | typeMismatch (producer output : String) (found : ValueType)
      (consumer input : String) (wanted : ValueType)
  | cycle (producer output consumer input : String)
  | notTeleportEntry (id : BlockId)
  | teleportCycle (out entry : BlockId)
  | notTeleportExit (block : String)
  | noStage (block className : String)
deriving DecidableEq, Repr

def GraphError.message : GraphError → String
  | .missingBlock id => "block " ++ id.text ++ " is not part of this graph"
  | .noOutput id i => "block " ++ id.text ++ " has no output #" ++ toString i
  | .noInput id i => "block " ++ id.text ++ " has no input #" ++ toString i
  | .noOutputNamed id name => "block " ++ id.text ++ " has no output named " ++ name
  | .noInputNamed id name => "block " ++ id.text ++ " has no input named " ++ name
  | .alreadyConnected input block =>
    "input " ++ input ++ " of block " ++ block ++ " is already connected"
  | .selfLink block => "cannot connect block " ++ block ++ " to itself"
  | .typeMismatch producer output found consumer input wanted =>
    "cannot connect " ++ producer ++ "." ++ output ++ " (" ++ found.name ++ ") to " ++ consumer ++
      "." ++ input ++ " (" ++ wanted.name ++ "): incompatible types"
  | .cycle producer output consumer input =>
    "connecting " ++ producer ++ "." ++ output ++ " to " ++ consumer ++ "." ++ input ++
      " would create a cycle"
  | .notTeleportEntry id => "block " ++ id.text ++ " is not a teleport entry point"
  | .teleportCycle out entry =>
    "linking teleport " ++ out.text ++ " to " ++ entry.text ++ " would create a cycle"
  | .notTeleportExit block => "block " ++ block ++ " is not a teleport exit"
  | .noStage block cls =>
    "block " ++ block ++ "[" ++ cls ++ "] has no stage target and cannot be an output node"

/-- Blocks in the order in which they were added, and the number of the next one. -/
structure Graph where
  blocks : List Block := []
  nextId : Nat := 1
deriving Repr, Inhabited

namespace Graph

def get? (g : Graph) (id : BlockId) : Option Block := g.blocks.find? fun b => b.id == id

def contains (g : Graph) (id : BlockId) : Bool := g.blocks.any fun b => b.id == id

def ids (g : Graph) : List BlockId := g.blocks.map Block.id

def find (g : Graph) (id : BlockId) : Except GraphError Block :=
  match g.get? id with
  | some b => .ok b
  | none => .error (.missingBlock id)

/-- The first block of a name. -/
def named? (g : Graph) (name : String) : Option Block := g.blocks.find? fun b => b.name == name

def modify (g : Graph) (id : BlockId) (f : Block → Block) : Graph :=
  { g with blocks := g.blocks.map fun b => if b.id = id then f b else b }

/-- The identity that the next block gets. -/
def freshId (g : Graph) : BlockId := ⟨g.nextId⟩

/-- Adds a block under the next identity, `g.freshId`. -/
def insert (g : Graph) (name : String) (kind : Kind) : Graph :=
  { blocks := g.blocks ++ [Block.new g.freshId name kind], nextId := g.nextId + 1 }

theorem ids_insert (g : Graph) (name : String) (kind : Kind) :
    (g.insert name kind).ids = g.ids ++ [g.freshId] := by simp [insert, ids, Block.new]

/-- A change that leaves the identity of its block alone leaves the identities of the graph
alone. -/
theorem ids_modify (g : Graph) (id : BlockId) (f : Block → Block)
    (keeps : ∀ b, (f b).id = b.id := by intro; rfl) : (g.modify id f).ids = g.ids := by
  simp only [modify, ids, List.map_map]
  congr 1
  funext b
  by_cases same : b.id = id <;> simp [same, keeps]

/-- The blocks that feed a block; none for an identity that is not in the graph. -/
def feeders (g : Graph) (id : BlockId) : List BlockId := (g.get? id).elim [] Block.feeders

/-- Takes the links of a block off the sockets at their other ends, together with every teleport
that enters at it. -/
def detach (g : Graph) (b : Block) : Graph :=
  let g := b.inputs.zipIdx.foldl (fun g (p, i) =>
    match p.link with
    | some source => g.modify source.block (·.removeEndpoint source.index ⟨b.id, i⟩)
    | none => g) g
  let g := b.outputs.foldl (fun g p =>
    p.endpoints.foldl (fun g e => g.modify e.block (·.setLink e.index none)) g) g
  { g with
    blocks := g.blocks.map fun other =>
      if other.kind.teleportEntry = some b.id then
        { other with kind := other.kind.setTeleportEntry none }
      else other }

/-- Takes a block out of the graph; the second part is the block, disposed of. -/
def remove (g : Graph) (id : BlockId) : Graph × Option Block :=
  match g.get? id with
  | none => (g, none)
  | some b =>
    let rest : Graph := { g with blocks := g.blocks.filter fun other => other.id != id }
    (rest.detach b, some b.dispose)

/-- Breaks the link of an input, if it has one. -/
def disconnect (g : Graph) (target : SocketRef) : Except GraphError Graph := do
  let consumer ← g.find target.block
  match consumer.inputs[target.index]? with
  | none => .error (.noInput target.block target.index)
  | some input =>
    match input.link with
    | none => .ok g
    | some source =>
      .ok ((g.modify target.block (·.setLink target.index none)).modify source.block
        (·.removeEndpoint source.index target))

/-- Breaks the link of the input of a name. -/
def disconnectNamed (g : Graph) (target : BlockId) (input : String) : Except GraphError Graph := do
  let consumer ← g.find target
  match consumer.inputIndex? input with
  | none => .error (.noInputNamed target input)
  | some index => g.disconnect ⟨target, index⟩

end Graph

end ShaderGraph
