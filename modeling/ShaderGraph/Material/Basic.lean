import ShaderGraph.Graph.Connect
import ShaderGraph.Material.Compiled
import ShaderGraph.Material.Options
import ShaderGraph.Program.Source
/-!
Materials: a graph, the roots of its two stages, and the result of the last pass.
-/

namespace ShaderGraph

/-- The blocks at which each stage ends. -/
structure Roots where
  vertex : List BlockId := []
  fragment : List BlockId := []
deriving DecidableEq, Repr, Inhabited

namespace Roots

/-- Makes a block a root of every stage that its target includes. -/
def add (r : Roots) (target : Target) (id : BlockId) : Roots where
  vertex := if target.includes .vertex then pushNew id r.vertex else r.vertex
  fragment := if target.includes .fragment then pushNew id r.fragment else r.fragment

def erase (r : Roots) (id : BlockId) : Roots where
  vertex := r.vertex.filter (· != id)
  fragment := r.fragment.filter (· != id)

/-- Every root once, those of the vertex stage first. -/
def all (r : Roots) : List BlockId :=
  (r.vertex ++ r.fragment).foldl (fun ids id => pushNew id ids) []

end Roots

/-- A change to the roots of one pass. -/
structure Optimizer where
  name : String
  optimize : Graph → Roots → Roots

/-- The first occurrence of each root that is in the graph. -/
def Graph.distinctRoots (g : Graph) (roots : List BlockId) : List BlockId :=
  (roots.filter g.contains).foldl (fun ids id => pushNew id ids) []

/-- Drops roots that are repeated or no longer in the graph. -/
def Optimizer.deduplicate : Optimizer where
  name := "deduplicate-roots"
  optimize g r := ⟨g.distinctRoots r.vertex, g.distinctRoots r.fragment⟩

/-- A material. -/
structure Material where
  name : String
  mode : Mode := .material
  comment : String := ""
  options : Options := {}
  /-- What an editor wants to keep; it has no meaning here. -/
  editorData : Option Json := none
  locations : Option Json := none
  graph : Graph := {}
  /-- The blocks met by the last pass. -/
  attached : List BlockId := []
  roots : Roots := {}
  optimizers : List Optimizer := []
  pass : PassId := .first
  compiled : Option CompiledGraph := none
  cache : ProgramCache := {}
  /-- Whether someone wants to hear of programs that fail. -/
  watched : Bool := false

namespace Material

def addBlock (m : Material) (name : String) (kind : Kind) : Material :=
  { m with graph := m.graph.insert name kind }

/-- Makes a block a root. A block that belongs to no stage cannot be one. -/
def addRoot (m : Material) (id : BlockId) : Except GraphError Material := do
  let block ← m.graph.find id
  if block.target.includes .vertex || block.target.includes .fragment then
    return { m with roots := m.roots.add block.target id }
  else .error (.noStage block.name block.className)

def removeRoot (m : Material) (id : BlockId) : Material := { m with roots := m.roots.erase id }

/-- Takes a block out of the material; the second part is the block, disposed of. -/
def removeBlock (m : Material) (id : BlockId) : Material × Option Block :=
  let (graph, block) := m.graph.remove id
  ({ m.removeRoot id with graph, attached := m.attached.filter (· != id) }, block)

/-- Drops every block, every root and what the editor kept. The result of the last pass stays. -/
def clear (m : Material) : Material :=
  { m with
    graph := { m.graph with blocks := [] }
    attached := []
    roots := {}
    editorData := none
    locations := none }

/-- Drops everything that the material holds. -/
def dispose (m : Material) : Material :=
  { m.clear with compiled := none, cache := {}, watched := false }

/-- The material in one line, as people read it. -/
def describe (m : Material) : String :=
  let ids (l : List BlockId) :=
    "[" ++ Value.commaList (l.map fun id => "BlockId(" ++ id.text ++ ")") ++ "]"
  "NodeMaterial \x7b name: " ++ Text.quote m.name ++ ", mode: " ++ m.mode.name ++ ", blocks: " ++
    toString m.graph.blocks.length ++ ", vertex_output_nodes: " ++ ids m.roots.vertex ++
    ", fragment_output_nodes: " ++ ids m.roots.fragment ++ ", pass_id: PassId(" ++
    toString m.pass.index ++ "), .. \x7d"

end Material

end ShaderGraph
