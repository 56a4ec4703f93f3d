import ShaderGraph.Material.Basic
/-!
The graph that a material of each mode starts with.
-/

namespace ShaderGraph

open Number

/-- A graph described by the names of its blocks. -/
structure Preset where
  blocks : List (String × Kind)
  /-- Producer, output, consumer and input of every link. -/
  links : List (String × String × String × String)
  roots : List String

namespace Preset

/-- A color of four components, in tenths. -/
def tenths (r g b : Nat) : Value :=
  .color4 #v[Single.ratio r 10, Single.ratio g 10, Single.ratio b 10, Single.one]

/-- A mesh at its place in the world, in one color. -/
def surface : Preset where
  blocks :=
    [("position", .input (.ofAttribute "position" .vector3)),
      ("world", .input (.ofSystem .world)),
      ("worldPos", .transform {}),
      ("viewProjection", .input (.ofSystem .viewProjection)),
      ("worldPos * viewProjectionTransform", .transform {}),
      ("vertexOutput", .vertexOutput),
      ("color", .input (.ofConstant (tenths 8 8 8))),
      ("fragmentOutput", .fragmentOutput {})]
  links :=
    [("position", "output", "worldPos", "vector"),
      ("world", "output", "worldPos", "transform"),
      ("worldPos", "output", "worldPos * viewProjectionTransform", "vector"),
      ("viewProjection", "output", "worldPos * viewProjectionTransform", "transform"),
      ("worldPos * viewProjectionTransform", "output", "vertexOutput", "vector"),
      ("color", "output", "fragmentOutput", "rgba")]
  roots := ["vertexOutput", "fragmentOutput"]

/-- A vertex stage that covers the screen, in front of the rest of a preset. -/
def onScreen (p : Preset) : Preset where
  blocks :=
    [("position", .input (.ofAttribute "position2d" .vector2)),
      ("one", .input (.ofConstant (.float Single.one))),
      ("positionMerger", .vectorMerger),
      ("vertexOutput", .vertexOutput)] ++ p.blocks
  links :=
    [("position", "output", "positionMerger", "xyIn"),
      ("one", "output", "positionMerger", "w"),
      ("positionMerger", "xyzw", "vertexOutput", "vector")] ++ p.links
  roots := "vertexOutput" :: p.roots

/-- The picture on the screen, unchanged. -/
def postProcess : Preset := onScreen {
  blocks :=
    [("half", .input (.ofConstant (.float (Single.ratio 1 2)))),
      ("scale", .math .multiply),
      ("offset", .math .add),
      ("textureSampler", .texture {}),
      ("fragmentOutput", .fragmentOutput {})]
  links :=
    [("position", "output", "scale", "left"),
      ("half", "output", "scale", "right"),
      ("scale", "output", "offset", "left"),
      ("half", "output", "offset", "right"),
      ("offset", "output", "textureSampler", "uv"),
      ("textureSampler", "rgba", "fragmentOutput", "rgba")]
  roots := ["fragmentOutput"] }

/-- Two colors that change into each other with time. -/
def proceduralTexture : Preset := onScreen {
  blocks :=
    [("colorA", .input (.ofUniform (tenths 1 2 8))),
      ("colorB", .input (.ofUniform (tenths 9 5 1))),
      ("time", .input (InputBlock.ofUniform (.float Binary.zero)).animatedWithTime),
      ("gradient", .clamp {}),
      ("lerp", .lerp),
      ("fragmentOutput", .fragmentOutput {})]
  links :=
    [("time", "output", "gradient", "value"),
      ("colorA", "output", "lerp", "left"),
      ("colorB", "output", "lerp", "right"),
      ("gradient", "output", "lerp", "gradient"),
      ("lerp", "output", "fragmentOutput", "rgba")]
  roots := ["fragmentOutput"] }

/-- A texture in the color of the particle. -/
def particle : Preset where
  blocks :=
    [("uv", .input (.ofAttribute "particle_uv" .vector2)),
      ("diffuseSampler", .texture {}),
      ("color", .input (.ofAttribute "particle_color" .color4)),
      ("tint", .math .multiply),
      ("fragmentOutput", .fragmentOutput {})]
  links :=
    [("uv", "output", "diffuseSampler", "uv"),
      ("diffuseSampler", "rgba", "tint", "left"),
      ("color", "output", "tint", "right"),
      ("tint", "output", "fragmentOutput", "rgba")]
  roots := ["fragmentOutput"]

def ofMode : Mode → Preset
  | .material => surface
  | .postProcess => postProcess
  | .proceduralTexture => proceduralTexture
  | .particle => particle

/-- The identity of a block of the preset, if the first one gets the number `base`. -/
def idOf (p : Preset) (base : Nat) (name : String) : BlockId :=
  ⟨base + (p.blocks.map Prod.fst).idxOf name⟩

end Preset

namespace Material

/-- Adds the blocks, links and roots of a preset. -/
def install (m : Material) (p : Preset) : Except GraphError Material := do
  let id := p.idOf m.graph.nextId
  let graph := p.blocks.foldl (fun g (name, kind) => g.insert name kind) m.graph
  let graph ← p.links.foldlM (fun g (producer, output, consumer, input) =>
    g.connectNamed (id producer) output (id consumer) input) graph
  p.roots.foldlM (fun m name => m.addRoot (id name)) { m with graph }

/-- Replaces the graph by that of a mode. -/
def setToDefault (m : Material) (mode : Mode) : Except GraphError Material :=
  { m.clear with mode }.install (Preset.ofMode mode)

end Material

end ShaderGraph
