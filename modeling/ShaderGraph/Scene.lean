import ShaderGraph.Value.Basic
/-!
What the renderer tells about the thing drawn and the scene around it, and the values that are
sent to a program when it is drawn.
-/

namespace ShaderGraph

open Number

/-- The morph targets of a mesh: which channels they have and how strong each target is. -/
structure MorphTargets where
  normals : Bool := false
  tangents : Bool := false
  uvs : Bool := false
  influences : List Single := []
deriving DecidableEq, Repr

/-- The vertex data of the thing drawn. -/
structure Mesh where
  normals : Bool := false
  tangents : Bool := false
  colors : Bool := false
  useColors : Bool := true
  /-- How many sets of texture coordinates there are, counted from the first. -/
  uvSets : Nat := 0
  morph : Option MorphTargets := none
  boneInfluencers : Nat := 0
  bones : List Matrix := []
  applyFog : Bool := true
  world : Matrix := Matrix.identity
deriving DecidableEq, Repr

/-- How fog grows with distance. -/
inductive FogMode where
  | exp
  | exp2
  | linear
deriving DecidableEq, Repr

namespace FogMode

def ofName? : String → Option FogMode
  | "Exp" => some .exp
  | "Exp2" => some .exp2
  | "Linear" => some .linear
  | _ => none

/-- The number by which a program knows the mode. -/
def code : FogMode → Single
  | .exp => Binary.ofNat 1
  | .exp2 => Binary.ofNat 2
  | .linear => Binary.ofNat 3

end FogMode

structure Fog where
  mode : FogMode := .linear
  start : Single := Binary.ofNat 20
  finish : Single := Binary.ofNat 60
  density : Single := Single.ratio 1 10
  color : Vector Single 3 := #v[Single.ratio 2 10, Single.ratio 2 10, Single.ratio 3 10]
deriving DecidableEq, Repr

/-- What is drawn ahead of the main pass. -/
structure Prepass where
  position : Bool := false
  normal : Bool := false
  depth : Bool := false
deriving DecidableEq, Repr

/-- The state of the scene in one frame. -/
structure Scene where
  fog : Option Fog := none
  orthographic : Bool := false
  prepass : Option Prepass := none
  view : Matrix := Matrix.identity
  projection : Matrix := Matrix.identity
  camera : Vector Single 3 := Vector.replicate 3 Binary.zero
  /-- How much faster than usual animations run. -/
  animationRatio : Single := Single.one
deriving DecidableEq, Repr

def Scene.viewProjection (s : Scene) : Matrix := s.projection * s.view

/-- Values that the renderer knows by name. -/
inductive SystemValue where
  | world
  | view
  | projection
  | viewProjection
  | worldView
  | worldViewProjection
  | cameraPosition
  | fogColor
deriving DecidableEq, Repr

namespace SystemValue

def all : List SystemValue :=
  [.world, .view, .projection, .viewProjection, .worldView, .worldViewProjection,
    .cameraPosition, .fogColor]

def name : SystemValue → String
  | .world => "World"
  | .view => "View"
  | .projection => "Projection"
  | .viewProjection => "ViewProjection"
  | .worldView => "WorldView"
  | .worldViewProjection => "WorldViewProjection"
  | .cameraPosition => "CameraPosition"
  | .fogColor => "FogColor"

def ofName? (s : String) : Option SystemValue := all.find? fun v => v.name == s

def type : SystemValue → ValueType
  | .cameraPosition => .vector3
  | .fogColor => .color3
  | _ => .matrix

/-- The name of a block made for the value. -/
def blockName : SystemValue → String
  | .cameraPosition => "cameraPosition"
  | .fogColor => "fogColor"
  | v => v.name

/-- The wished name of its uniform. -/
def uniformName (v : SystemValue) : String := "u_" ++ v.blockName

/-- The value in a frame. -/
def value (mesh : Mesh) (scene : Scene) : SystemValue → Value
  | .world => .matrix mesh.world
  | .view => .matrix scene.view
  | .projection => .matrix scene.projection
  | .viewProjection => .matrix scene.viewProjection
  | .worldView => .matrix (scene.view * mesh.world)
  | .worldViewProjection => .matrix (scene.viewProjection * mesh.world)
  | .cameraPosition => .vector3 scene.camera
  | .fogColor => .color3 (scene.fog.elim (Vector.replicate 3 Binary.zero) Fog.color)

theorem type_value (mesh : Mesh) (scene : Scene) (v : SystemValue) :
    (v.value mesh scene).type = v.type := by cases v <;> rfl

end SystemValue

/-- A value as it is sent to a program. -/
inductive Bound where
  | float (x : Single)
  | int (n : Int)
  | floats (xs : List Single)
  | matrix (m : Matrix)
  | matrices (count : Nat)
  | texture (url : String)
deriving DecidableEq, Repr

/-- Sending a value to the uniform or texture of a name. -/
abbrev Binding := String × Bound

/-- The value sent last under a name. -/
def Binding.last? (name : String) (sent : List Binding) : Option Bound :=
  (sent.reverse.find? fun b => b.1 == name).map Prod.snd

/-- How a value is sent. -/
def Value.bound : Value → Bound
  | .float x => .float x
  | .int n => .int n
  | .matrix m => .matrix m
  | v => .floats v.components

end ShaderGraph
