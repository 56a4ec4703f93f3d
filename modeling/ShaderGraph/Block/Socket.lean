import ShaderGraph.Stage
import ShaderGraph.Value.Type
/-!
Sockets of blocks: what a kind declares, and what a block of a graph holds.

An input keeps the one output that feeds it; an output keeps every input it feeds.
-/

namespace ShaderGraph

/-- A socket of a block, by its place among the inputs or among the outputs. -/
structure SocketRef where
  block : BlockId
  index : Nat
deriving DecidableEq, Repr, Inhabited

/-- The declaration of a socket. -/
structure SocketSpec where
  name : String
  type : ValueType
  optional : Bool := false
  target : Target := .vertexAndFragment
  accepted : List ValueType := []
  excluded : List ValueType := []
  /-- For an output that follows an input: which one. -/
  typeSource : Option Nat := none
deriving DecidableEq, Repr

/-- Whether an input takes values of a type. Exclusion wins over everything else. -/
def SocketSpec.accepts (p : SocketSpec) (t : ValueType) : Bool :=
  !p.excluded.contains t && (t.compatible p.type || p.accepted.any t.compatible)

/-- An input of a block. -/
structure InputSocket where
  spec : SocketSpec
  /-- The output that feeds it. -/
  link : Option SocketRef := none
  /-- The name given to it by the pass, if it does not take its producer's. -/
  symbol : String := ""
  /-- Whether `symbol` is used instead of the producer's. -/
  enforced : Bool := false
deriving DecidableEq, Repr

/-- An output of a block. -/
structure OutputSocket where
  spec : SocketSpec
  /-- The inputs it feeds, in the order in which they were connected. -/
  endpoints : List SocketRef := []
  symbol : String := ""
deriving DecidableEq, Repr

namespace InputSocket

def isConnected (p : InputSocket) : Bool := p.link.isSome

/-- The socket at the start of a pass. -/
def reset (p : InputSocket) : InputSocket := { p with symbol := "", enforced := false }

end InputSocket

namespace OutputSocket

def isConnected (p : OutputSocket) : Bool := !p.endpoints.isEmpty

def reset (p : OutputSocket) : OutputSocket := { p with symbol := "" }

end OutputSocket

end ShaderGraph
