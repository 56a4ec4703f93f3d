import ShaderGraph.Block.Site
/-!
Blocks that move vertices: morph targets and bones.

How many targets and bones there are is known only when a program is made for a mesh. The lines of
the morph targets are spliced in at an anchor; the bones are written as nested regions under their
count. What the two declare beyond the build, `dynamicDecls`, follows the same counts.
-/

namespace ShaderGraph

open Number

/-- Uniforms and attributes that depend on the defines. -/
structure DynamicDecls where
  uniforms : List UniformDecl := []
  attributes : List AttributeDecl := []
deriving DecidableEq, Repr

/-- Names that a build of morph targets leaves for the lines spliced in later. -/
structure MorphNames where
  anchor : Nat
  position : String
  normal : String
  tangent : String
  uv : String
  positionOut : String
  normalOut : String
  tangentOut : String
  uvOut : String
deriving DecidableEq, Repr

/-- Moves vertices towards the targets of a mesh. -/
structure MorphBlock where
  names : Option MorphNames := none
deriving DecidableEq, Repr

namespace MorphBlock

/-- How many targets a program takes at most. -/
def maxInfluencers : Nat := 8

def inputs : List SocketSpec :=
  [{ name := "position", type := .vector3 },
    { name := "normal", type := .vector3, optional := true },
    { name := "tangent", type := .vector4, optional := true },
    { name := "uv", type := .vector2, optional := true }]

def outputs : List SocketSpec :=
  [{ name := "positionOutput", type := .vector3 }, { name := "normalOutput", type := .vector3 },
    { name := "tangentOutput", type := .vector4 }, { name := "uvOutput", type := .vector2 }]

/-- The wishes for inputs that are free. -/
def autoConfigure (free : String → Bool) : List AutoConnect :=
  ([("position", ValueType.vector3), ("normal", .vector3), ("tangent", .vector4),
    ("uv", .vector2)].filter fun (name, _) => free name).map
    fun (name, type) => ⟨name, .attribute name type⟩

/-- The value of an input; zero when it is not connected. -/
def valueOrZero (name : String) : Emit MorphBlock String := do
  let slot ← Emit.input name
  if slot.connected then return slot.symbol
  else return (← Emit.language).splat "0.0" slot.type

/-- Declares an output that starts out with the value of an input. -/
def declareStart (name value : String) : Emit MorphBlock String := do
  let slot ← Emit.output name
  Emit.push ((← Emit.language).declareVar slot.symbol slot.type value)
  return slot.symbol

/-- What is written once the block is on its lists. -/
def write : Emit MorphBlock Unit := do
  let position ← valueOrZero "position"
  let normal ← valueOrZero "normal"
  let tangent ← valueOrZero "tangent"
  let uv ← valueOrZero "uv"
  let positionOut ← declareStart "positionOutput" position
  let normalOut ← declareStart "normalOutput" normal
  let tangentOut ← declareStart "tangentOutput" tangent
  let uvOut ← declareStart "uvOutput" uv
  Emit.beginIf (.defined "MORPHTARGETS")
  let anchor := (← get).draft.anchors
  Emit.modifyDraft StageDraft.pushAnchor
  Emit.endIf
  Emit.setKind
    ⟨some ⟨anchor, position, normal, tangent, uv, positionOut, normalOut, tangentOut, uvOut⟩⟩

def build : Emit MorphBlock Unit := do
  Emit.enter .defines
  Emit.enter .bindable
  Emit.enter .repeatable
  Emit.enter .dynamicUniform
  write

def prepareDefines (mesh : Mesh) (d : DefineSet) : DefineSet :=
  let targets := mesh.morph.filter fun m => !m.influences.isEmpty
  let count := targets.elim 0 fun m => min m.influences.length maxInfluencers
  let has (channel : MorphTargets → Bool) := targets.any channel
  (((((d.putFlag "MORPHTARGETS" targets.isSome .attributes).putCount
    "NUM_MORPH_INFLUENCERS" count .attributes).putFlag
    "MORPHTARGETS_NORMAL" (has MorphTargets.normals && mesh.normals) .attributes).putFlag
    "MORPHTARGETS_TANGENT" (has MorphTargets.tangents && mesh.tangents) .attributes).putFlag
    "MORPHTARGETS_UV" (has MorphTargets.uvs && 0 < mesh.uvSets) .attributes)

/-- How many targets the program of a define set has. -/
def influencers (d : DefineSet) : Nat :=
  if d.isDefined "MORPHTARGETS" then min (d.count "NUM_MORPH_INFLUENCERS").toNat maxInfluencers
  else 0

def influence (i : Nat) : String := "morphTargetInfluences" ++ toString i

/-- The lines for target `i`. -/
def targetLines (n : MorphNames) (d : DefineSet) (l : Language) (i : Nat) : String :=
  let weight := l.uniformRef (influence i)
  let i := toString i
  let shift (out source target : String) :=
    out ++ " += (" ++ target ++ " - " ++ source ++ ") * " ++ weight ++ ";\n"
  shift n.positionOut n.position ("position" ++ i) ++
    (if d.isDefined "MORPHTARGETS_NORMAL" then shift n.normalOut n.normal ("normal" ++ i)
      else "") ++
    (if d.isDefined "MORPHTARGETS_TANGENT" then
      n.tangentOut ++ " = " ++ ValueType.vector4.shaderName l ++ "(" ++ n.tangentOut ++
        ".xyz + (tangent" ++ i ++ " - " ++ n.tangent ++ ".xyz) * " ++ weight ++ ", " ++
        n.tangentOut ++ ".w);\n"
    else "") ++
    (if d.isDefined "MORPHTARGETS_UV" then shift n.uvOut n.uv ("uv_" ++ i) else "")

/-- The anchor of the block and the text spliced in there. -/
def splice (b : MorphBlock) (d : DefineSet) (l : Language) : Option (Nat × String) :=
  b.names.map fun n =>
    (n.anchor, String.join ((List.range (influencers d)).map (targetLines n d l)))

/-- The attributes of target `i`. -/
def targetAttributes (d : DefineSet) (i : Nat) : List AttributeDecl :=
  let i := toString i
  [{ name := "position" ++ i, type := .vector3 }] ++
    (if d.isDefined "MORPHTARGETS_NORMAL" then [{ name := "normal" ++ i, type := .vector3 }]
      else []) ++
    (if d.isDefined "MORPHTARGETS_TANGENT" then [{ name := "tangent" ++ i, type := .vector3 }]
      else []) ++
    (if d.isDefined "MORPHTARGETS_UV" then [{ name := "uv_" ++ i, type := .vector2 }] else [])

def dynamicDecls (d : DefineSet) : DynamicDecls :=
  let targets := List.range (influencers d)
  { uniforms := targets.map fun i => ⟨influence i, .value .float⟩
    attributes := targets.flatMap (targetAttributes d) }

/-- Sends the strength of every target, once the block is part of a program. -/
def bind (b : MorphBlock) (mesh : Mesh) : List Binding :=
  match b.names, mesh.morph with
  | some _, some m =>
    (m.influences.take maxInfluencers).zipIdx.map fun (x, i) => (influence i, .float x)
  | _, _ => []

end MorphBlock

/-- Moves vertices with the bones of a skeleton. -/
structure BonesBlock where
  /-- Whether a pass has built the block. -/
  built : Bool := false
deriving DecidableEq, Repr

namespace BonesBlock

/-- How many bones act on a vertex at most. -/
def maxInfluencers : Nat := 4

def inputs : List SocketSpec :=
  [{ name := "matricesIndices", type := .vector4 }, { name := "matricesWeights", type := .vector4 },
    { name := "world", type := .matrix }]

def outputs : List SocketSpec := [{ name := "output", type := .matrix }]

def autoConfigure (free : String → Bool) : List AutoConnect :=
  ((["matricesIndices", "matricesWeights"].filter free).map
    fun name => ⟨name, .attribute name .vector4⟩) ++
    (if free "world" then [⟨"world", .system .world⟩] else [])

/-- The weighted matrix of influence `i`. -/
def weighted (l : Language) (indices weights : String) (i : Nat) : String :=
  let i := toString i
  l.uniformRef "mBones" ++ "[" ++ l.castInt (indices ++ "[" ++ i ++ "]") ++ "] * " ++ weights ++
    "[" ++ i ++ "]"

/-- Adds influence `i`, if there are more than `i`. -/
def emitInfluence (influence indices weights : String) (i : Nat) : Emit BonesBlock Unit := do
  Emit.beginIf (.greaterThan "NUM_BONE_INFLUENCERS" i)
  Emit.push (influence ++ " = " ++ influence ++ " + " ++
    weighted (← Emit.language) indices weights i ++ ";\n")
  Emit.endIf

/-- What is written once the block is on its lists. -/
def write : Emit BonesBlock Unit := do
  let indices := (← Emit.input "matricesIndices").symbol
  let weights := (← Emit.input "matricesWeights").symbol
  let world := (← Emit.input "world").symbol
  let influence ← Emit.freshVariable "influence"
  let l ← Emit.language
  Emit.beginIf (.greaterThan "NUM_BONE_INFLUENCERS" 0)
  Emit.push (l.declareVar influence .matrix (weighted l indices weights 0))
  [1, 2, 3].forM (emitInfluence influence indices weights)
  Emit.declareOutput "output" (world ++ " * " ++ influence)
  Emit.beginElse
  Emit.declareOutput "output" world
  Emit.endIf
  Emit.setKind { built := true }

def build : Emit BonesBlock Unit := do
  Emit.enter .defines
  Emit.enter .forcedBindable
  Emit.enter .dynamicUniform
  Emit.enter .fallbacks
  write

def prepareDefines (mesh : Mesh) (d : DefineSet) : DefineSet :=
  let count := if mesh.bones.isEmpty then 0 else min mesh.boneInfluencers maxInfluencers
  (d.putCount "NUM_BONE_INFLUENCERS" count .attributes).putCount
    "BonesPerMesh" (max mesh.bones.length 1) .attributes

/-- The array of bones, if any act; its size is kept in 32 bits. -/
def dynamicDecls (d : DefineSet) : DynamicDecls :=
  if 0 < d.count "NUM_BONE_INFLUENCERS" then
    let size := (max (d.count "BonesPerMesh") 1).toNat % twoTo 32
    { uniforms := [⟨"mBones", .matrixArray size⟩] }
  else {}

def fallbacks (d : DefineSet) (chain : FallbackChain) : FallbackChain :=
  if 0 < d.count "NUM_BONE_INFLUENCERS" then chain.add 0 "NUM_BONE_INFLUENCERS" else chain

def bind (b : BonesBlock) (mesh : Mesh) : List Binding :=
  if b.built && !mesh.bones.isEmpty then [("mBones", .matrices mesh.bones.length)] else []

end BonesBlock

end ShaderGraph
