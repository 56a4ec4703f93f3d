import ShaderGraph.Block.Deformation
import ShaderGraph.Material.Compiled
/-!
What a program declares: uniforms, textures and vertex attributes.
-/

namespace ShaderGraph

/-- The declarations of one program; both stages share them. -/
structure Resources where
  uniforms : List UniformDecl := []
  samplers : List String := []
  attributes : List AttributeDecl := []
deriving DecidableEq, Repr

namespace Resources

def addUniform (r : Resources) (u : UniformDecl) : Resources :=
  { r with uniforms := declare UniformDecl.name u r.uniforms }

def addSampler (r : Resources) (s : String) : Resources :=
  { r with samplers := declare id s r.samplers }

def addAttribute (r : Resources) (a : AttributeDecl) : Resources :=
  { r with attributes := declare AttributeDecl.name a r.attributes }

/-- The declarations of two stages, each name once; those of the first stage come first. -/
def merge (vertex fragment : CompiledStage) : Resources :=
  let r := (vertex.uniforms ++ fragment.uniforms).foldl addUniform {}
  let r := (vertex.samplers ++ fragment.samplers).foldl addSampler r
  (vertex.attributes ++ fragment.attributes).foldl addAttribute r

/-- Adds the declarations that depend on defines. -/
def addDynamic (r : Resources) (d : DynamicDecls) : Resources :=
  d.attributes.foldl addAttribute (d.uniforms.foldl addUniform r)

/-- The attributes that the vertex data has, given the defines. -/
def active (r : Resources) (defines : DefineSet) : List AttributeDecl :=
  r.attributes.filter fun a => a.condition.all (·.holds defines)

/-- The attributes that the vertex data lacks. -/
def inactive (r : Resources) (defines : DefineSet) : List AttributeDecl :=
  r.attributes.filter fun a => !a.condition.all (·.holds defines)

end Resources

end ShaderGraph
