/-!
The two programs of a material, and which of them a block or a socket belongs to.
-/

namespace ShaderGraph

/-- One of the two programs of a material. -/
inductive Stage where
  | vertex
  | fragment
deriving DecidableEq, Repr, Inhabited

namespace Stage

def name : Stage → String
  | .vertex => "Vertex"
  | .fragment => "Fragment"

def bits : Stage → Nat
  | .vertex => 1
  | .fragment => 2

end Stage

/-- Which stages a block or a socket belongs to. A neutral block is built in whichever stage reaches
it first. -/
inductive Target where
  | vertex
  | fragment
  | vertexAndFragment
  | neutral
deriving DecidableEq, Repr, Inhabited

namespace Target

def all : List Target := [.vertex, .fragment, .vertexAndFragment, .neutral]

def name : Target → String
  | .vertex => "Vertex"
  | .fragment => "Fragment"
  | .vertexAndFragment => "VertexAndFragment"
  | .neutral => "Neutral"

def ofName? (s : String) : Option Target := all.find? fun t => t.name == s

/-- One bit a stage; neutral has a bit of its own, so it shares none with a stage. -/
def bits : Target → Nat
  | .vertex => 1
  | .fragment => 2
  | .vertexAndFragment => 3
  | .neutral => 4

def intersects (a b : Target) : Bool := a.bits &&& b.bits != 0

def includes (a : Target) (s : Stage) : Bool := a.bits &&& s.bits != 0

theorem includes_iff (a : Target) (s : Stage) :
    a.includes s = true ↔ a = .vertexAndFragment ∨ a.name = s.name := by
  cases a <;> cases s <;> decide

end Target

/-- Identity of a block. -/
structure BlockId where
  index : Nat
deriving DecidableEq, Repr, Inhabited

namespace BlockId

/-- How a block is named in messages. -/
def text (id : BlockId) : String := "#" ++ toString id.index

end BlockId

/-- Number of a build pass; zero stands for "never built". -/
structure PassId where
  index : Nat
deriving DecidableEq, Repr, Inhabited

namespace PassId

def first : PassId := ⟨0⟩

def next (p : PassId) : PassId := ⟨p.index + 1⟩

/-- The pass before; there is none before zero. -/
def previous (p : PassId) : PassId := ⟨p.index - 1⟩

end PassId

end ShaderGraph
