import ShaderGraph.Pass.Fault
/-!
The result of a pass.
-/

namespace ShaderGraph

/-- Both stages of a pass, and what programs made of them need to know. -/
structure CompiledGraph where
  pass : PassId
  language : Language
  vertex : CompiledStage
  fragment : CompiledStage
  roster : Roster
  varyings : List VaryingDecl
  hints : Hints
  errors : List String
deriving Repr

namespace CompiledGraph

def isSuccessful (c : CompiledGraph) : Bool := c.errors.isEmpty

/-- The problems of the pass as one error. -/
def check (c : CompiledGraph) : Except MaterialError Unit :=
  if c.errors.isEmpty then .ok () else .error (.buildFailed c.errors)

/-- Both stages with directives and anchor marks left in place. -/
def template (c : CompiledGraph) : String :=
  Text.concat (c.varyings.map fun v => "//varying " ++ v.name ++ " " ++ v.type.name ++ "\n") ++
    "//vertex\n" ++ c.vertex.template ++ "//fragment\n" ++ c.fragment.template

end CompiledGraph

end ShaderGraph
