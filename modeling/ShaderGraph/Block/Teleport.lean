import ShaderGraph.Block.Site
/-!
Teleports: a value goes in at one block and comes out at any number of others, without links
between them.
-/

namespace ShaderGraph

namespace TeleportIn

def inputs : List SocketSpec := [{ name := "input", type := .autoDetect }]

end TeleportIn

/-- Where a teleported value comes out. -/
structure TeleportOut where
  /-- The block at which the value goes in. -/
  entry : Option BlockId := none
  /-- The entry that a document names, until it is found in the graph. -/
  pending : Option Nat := none
deriving DecidableEq, Repr

namespace TeleportOut

def outputs : List SocketSpec := [{ name := "output", type := .basedOnInput }]

/-- The pass hands the value at the entry in as a slot of the name `entry`. -/
def build : Emit TeleportOut Unit := do
  match (← get).inputs.find? fun slot => slot.name == "entry" with
  | none => Emit.note "teleport has no entry point"
  | some entry =>
    if entry.connected then Emit.declareOutput "output" entry.symbol
    else Emit.note "teleport entry point has nothing connected"

def fields (t : TeleportOut) : List (String × Json) :=
  t.entry.toList.map fun id => ("entryPoint", .integer id.index)

def setFields? (t : TeleportOut) (fields : List (String × Json)) : Option TeleportOut := do
  let pending ← Json.optionalField? fields "entryPoint" Json.word?
  return { t with pending }

end TeleportOut

end ShaderGraph
