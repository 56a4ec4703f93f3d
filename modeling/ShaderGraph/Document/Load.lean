import ShaderGraph.Block.Registry
import ShaderGraph.Document.Basic
import ShaderGraph.Material.Basic
/-!
Loading a document into a material.

Blocks get new identities; the numbers of the document only tell which links and teleports to
restore. Links are restored consumer by consumer, walking away from the blocks without inputs; when
a document is merged into a material, the walk starts at every block.

A load that fails keeps what it has done up to that point.
-/

namespace ShaderGraph

/-- Why a document cannot be loaded. -/
inductive LoadError where
  | document (fault : Document.Fault)
  | unknownKind (block : String) (id : Nat) (cause : UnknownKind)
  | badFields (block : String) (id : Nat)
  | missingEntry (teleport : String) (entry : Nat)
  | graph (cause : GraphError)
  | restore (consumer input : String) (cause : GraphError)
deriving DecidableEq, Repr

def LoadError.message : LoadError → String
  | .document fault => fault.message
  | .unknownKind block id cause =>
    "block " ++ block ++ " (id " ++ toString id ++ "): " ++ cause.message
  | .badFields block id => "invalid fields on block " ++ block ++ " (id " ++ toString id ++ ")"
  | .missingEntry teleport entry =>
    "teleport " ++ teleport ++ " points at missing block " ++ toString entry
  | .graph cause => cause.message
  | .restore consumer input cause =>
    "failed to restore " ++ consumer ++ "." ++ input ++ ": " ++ cause.message

/-- The blocks made for the numbers of a document. -/
abbrev IdMap := List (Nat × BlockId)

/-- A part of a load. -/
abbrev Load := ExceptT LoadError (StateM Material)

namespace Load

/-- Changes the graph, or ends the load. -/
def onGraph (wrap : GraphError → LoadError) (f : Graph → Except GraphError Graph) : Load Unit := do
  let m ← get
  match f m.graph with
  | .ok graph => set { m with graph }
  | .error e => throw (wrap e)

/-- The kind of a block, with its settings. -/
def kindOf (r : Registry) (b : BlockEntry) : Except LoadError Kind :=
  match r.create b.tag with
  | .error e => .error (.unknownKind b.name b.id e)
  | .ok kind =>
    match kind.setFields? b.fields with
    | some kind => .ok kind
    | none => .error (.badFields b.name b.id)

/-- Adds a block. -/
def addBlock (r : Registry) (b : BlockEntry) : Load (Nat × BlockId) := do
  let kind ← kindOf r b
  let m ← get
  let id := m.graph.freshId
  let graph := (m.graph.insert b.name kind).modify id ({ · with comments := b.comments })
  set { m with graph }
  return (b.id, id)

/-- Restores the teleport that a block is waiting for. -/
def restoreTeleport (ids : IdMap) (b : BlockEntry) : Load Unit := do
  match ids.lookup b.id with
  | none => pure ()
  | some id =>
    let m ← get
    let pending := (m.graph.get? id).bind fun block => block.kind.takePending.1
    let taken := fun block : Block => { block with kind := block.kind.takePending.2 }
    set { m with graph := m.graph.modify id taken }
    match pending with
    | none => pure ()
    | some entry =>
      match ids.lookup entry with
      | none => throw (.missingEntry b.name entry)
      | some entryId => onGraph .graph fun g => g.setTeleportEntry id (some entryId)

/-- Restores a link. -/
def restoreLink (ids : IdMap) (consumer : BlockEntry) (l : LinkEntry) : Load Unit :=
  match ids.lookup l.target, ids.lookup consumer.id with
  | some producer, some id =>
    onGraph (.restore consumer.name l.input) fun g => g.connectNamed producer l.output id l.input
  | _, _ => pure ()

def addRoot (ids : IdMap) (output : Nat) : Load Unit := do
  match ids.lookup output with
  | none => pure ()
  | some id =>
    match (← get).addRoot id with
    | .ok m => set m
    | .error e => throw (.graph e)

end Load

namespace Document

/-- The blocks that a block feeds by links. -/
def consumers (d : Document) (id : Nat) : List Nat :=
  (d.blocks.filter fun b => b.links.any fun l => l.target == id).map BlockEntry.id

/-- The blocks whose links are restored, in order. -/
def restoreOrder (d : Document) (merge : Bool) : List BlockEntry :=
  let start := (d.blocks.filter fun b => merge || b.links.isEmpty).map BlockEntry.id
  (Search.breadth d.ids d.consumers [] start).filterMap fun id =>
    d.blocks.find? fun b => b.id == id

/-- What a material takes over from a document that replaces its graph. -/
def replaceIn (d : Document) (m : Material) : Material :=
  { m.clear with
    name := d.name, mode := d.mode, comment := d.comment, editorData := d.editorData
    locations := d.locations }

/-- Loads a document in place of the graph of a material, or beside it. -/
def loader (d : Document) (r : Registry) (merge : Bool) : Load IdMap := do
  if let some fault := d.fault? then throw (.document fault)
  unless merge do modify d.replaceIn
  let ids ← d.blocks.mapM (Load.addBlock r)
  d.blocks.forM (Load.restoreTeleport ids)
  (d.restoreOrder merge).forM fun consumer => consumer.links.forM (Load.restoreLink ids consumer)
  d.outputs.forM (Load.addRoot ids)
  return ids

end Document

namespace Material

/-- Loads a document; tells which block was made for each of its numbers. -/
def load (m : Material) (d : Document) (r : Registry) (merge : Bool) :
    Except LoadError IdMap × Material :=
  (d.loader r merge).run.run m

/-- A material made of a document; identities are counted on from `nextId`. Also gives the next
identity after that, which blocks of a failed load count in as well. -/
def ofDocument (d : Document) (r : Registry) (nextId : Nat) : Except LoadError Material × Nat :=
  let (result, m) := { name := d.name, graph := { nextId } : Material }.load d r false
  (result.map fun _ => m, m.graph.nextId)

end Material

end ShaderGraph
