import ShaderGraph.Material.Basic
import ShaderGraph.Program.Assembly
/-!
The programs of a built material: one for each define set.

The mesh and the scene decide some defines, and the blocks that entered themselves for it decide
the rest. `Material.programSource` is the program of a define set with everything spliced in afresh.
-/

namespace ShaderGraph

/-- The defines that follow from the mesh and the scene alone. -/
def DefineSet.describe (mesh : Mesh) (scene : Scene) (d : DefineSet) : DefineSet :=
  let d := d.putFlag "NORMAL" mesh.normals .attributes
  let d := d.putFlag "TANGENT" mesh.tangents .attributes
  let d := d.putFlag "VERTEXCOLOR_NME" (mesh.colors && mesh.useColors) .attributes
  let d := [1, 2, 3, 4, 5, 6].foldl (fun d i =>
    d.putFlag ("UV" ++ toString i) (i ≤ mesh.uvSets) .attributes) d
  let d := d.putFlag "PREPASS" scene.prepass.isSome .prepass
  let d := d.putFlag "PREPASS_POSITION" (scene.prepass.any Prepass.position) .prepass
  let d := d.putFlag "PREPASS_NORMAL" (scene.prepass.any Prepass.normal) .prepass
  let d := d.putFlag "PREPASS_DEPTH" (scene.prepass.any Prepass.depth) .prepass
  let d := d.putFlag "CAMERA_ORTHOGRAPHIC" scene.orthographic .misc
  d.putFlag "CAMERA_PERSPECTIVE" (!scene.orthographic) .misc

namespace CompiledGraph

/-- The blocks of a role that are still in the graph. -/
def participants (c : CompiledGraph) (g : Graph) (role : Role) : List Block :=
  (c.roster.blocks role).filterMap g.get?

/-- The defines for a mesh and a scene, with what every block adds. -/
def prepareDefines (c : CompiledGraph) (g : Graph) (mesh : Mesh) (scene : Scene)
    (d : DefineSet) : DefineSet :=
  (c.participants g .defines).foldl (fun d b => b.kind.prepareDefines mesh scene d)
    (d.describe mesh scene)

/-- The text of every block that fills anchors. -/
def spliceAll (c : CompiledGraph) (g : Graph) (d : DefineSet) : StageFills :=
  (c.participants g .repeatable).foldl (fun f b => f.splice b.kind d c.language) {}

/-- The declarations of the program for a define set. -/
def resources (c : CompiledGraph) (g : Graph) (d : DefineSet) : Resources :=
  let decls := (c.participants g .dynamicUniform).map fun b => b.kind.dynamicDecls d
  (Resources.merge c.vertex c.fragment).addDynamic
    ⟨decls.flatMap DynamicDecls.uniforms, decls.flatMap DynamicDecls.attributes⟩

/-- The program for a define set with the given texts spliced in. -/
def program (c : CompiledGraph) (g : Graph) (d : DefineSet) (fills : StageFills) : ProgramSource :=
  c.assemble d fills (c.resources g d)

/-- What the blocks can do without, given the defines. -/
def fallbackChain (c : CompiledGraph) (g : Graph) (d : DefineSet) : FallbackChain :=
  (c.participants g .fallbacks).foldl (fun chain b => b.kind.fallbacks d chain) {}

end CompiledGraph

/-- The program text of the last pass for one define set. -/
def Material.programSource (m : Material) (d : DefineSet) :
    Except MaterialError ProgramSource :=
  match m.compiled with
  | none => .error .notBuilt
  | some c => do
    c.check
    return c.program m.graph d (c.spliceAll m.graph d)

end ShaderGraph
