import ShaderGraph.Block.Arithmetic
import ShaderGraph.Block.Deformation
import ShaderGraph.Block.Fog
import ShaderGraph.Block.Input
import ShaderGraph.Block.Output
import ShaderGraph.Block.Teleport
import ShaderGraph.Block.Texture
/-!
The kinds of blocks, and what every kind answers to the pass, to the programs made of it and to
documents.

Most questions concern a few kinds only; the others take no part.
-/

namespace ShaderGraph

/-- The kind of a block with its settings and with what the last pass gave to it. -/
inductive Kind where
  | input (b : InputBlock)
  | transform (t : Transform)
  | vertexOutput
  | fragmentOutput (f : FragmentOutput)
  | math (op : MathOp)
  | clamp (c : Clamp)
  | lerp
  | vectorMerger
  | texture (t : TextureBlock)
  | morphTargets (m : MorphBlock)
  | bones (b : BonesBlock)
  | fog (f : FogBlock)
  | teleportIn
  | teleportOut (t : TeleportOut)
deriving DecidableEq, Repr

namespace Kind

/-! ## Declarations -/

/-- The name of the kind in documents and messages. -/
def className : Kind → String
  | .input _ => "InputBlock"
  | .transform _ => "TransformBlock"
  | .vertexOutput => "VertexOutputBlock"
  | .fragmentOutput _ => "FragmentOutputBlock"
  | .math op => op.className
  | .clamp _ => "ClampBlock"
  | .lerp => "LerpBlock"
  | .vectorMerger => "VectorMergerBlock"
  | .texture _ => "TextureBlock"
  | .morphTargets _ => "MorphTargetsBlock"
  | .bones _ => "BonesBlock"
  | .fog _ => "FogBlock"
  | .teleportIn => "TeleportInBlock"
  | .teleportOut _ => "TeleportOutBlock"

/-- The stages that the kind belongs to. -/
def target : Kind → Target
  | .input b => b.target
  | .vertexOutput | .morphTargets _ | .bones _ => .vertex
  | .fragmentOutput _ | .texture _ => .fragment
  | .fog _ => .vertexAndFragment
  | _ => .neutral

def inputs : Kind → List SocketSpec
  | .transform _ => Transform.inputs
  | .vertexOutput => VertexOutput.inputs
  | .fragmentOutput _ => FragmentOutput.inputs
  | .math _ => MathOp.inputs
  | .clamp _ => Clamp.inputs
  | .lerp => Lerp.inputs
  | .vectorMerger => VectorMerger.inputs
  | .texture _ => TextureBlock.inputs
  | .morphTargets _ => MorphBlock.inputs
  | .bones _ => BonesBlock.inputs
  | .fog _ => FogBlock.inputs
  | .teleportIn => TeleportIn.inputs
  | .input _ | .teleportOut _ => []

def outputs : Kind → List SocketSpec
  | .input b => b.outputs
  | .transform _ => Transform.outputs
  | .math _ | .clamp _ | .lerp => followingOutput
  | .vectorMerger => VectorMerger.outputs
  | .texture _ => TextureBlock.outputs
  | .morphTargets _ => MorphBlock.outputs
  | .bones _ => BonesBlock.outputs
  | .fog _ => FogBlock.outputs
  | .teleportOut _ => TeleportOut.outputs
  | .vertexOutput | .fragmentOutput _ | .teleportIn => []

/-- Whether a material may have only one block of the kind. -/
def isUnique : Kind → Bool
  | .morphTargets _ | .bones _ => true
  | _ => false

def isInput : Kind → Bool
  | .input _ => true
  | _ => false

def isAttribute : Kind → Bool
  | .input b => b.isAttribute
  | _ => false

/-- Whether the kind writes the result of a stage. -/
def isFinal : Kind → Bool
  | .vertexOutput | .fragmentOutput _ => true
  | _ => false

def isTeleportIn : Kind → Bool
  | .teleportIn => true
  | _ => false

def isTeleportOut : Kind → Bool
  | .teleportOut _ => true
  | _ => false

/-- The block at which a teleported value goes in. -/
def teleportEntry : Kind → Option BlockId
  | .teleportOut t => t.entry
  | _ => none

def setTeleportEntry (entry : Option BlockId) : Kind → Kind
  | .teleportOut t => .teleportOut { t with entry }
  | k => k

/-- Takes the entry that a document named. -/
def takePending : Kind → Option Nat × Kind
  | .teleportOut t => (t.pending, .teleportOut { t with pending := none })
  | k => (none, k)

/-- The type of an output that follows the inputs, where the kind decides it. -/
def resolveOutput : Kind → List ValueType → Option ValueType
  | .math _, [left, right] => some (left.wider right)
  | .lerp, [left, right, _] => some (left.wider right)
  | _, _ => none

/-! ## In a pass -/

/-- The start of a pass. -/
def start : Kind → Ledger → Kind × Ledger
  | .input b, l => let (b, l) := b.start l; (.input b, l)
  | k, l => (k, l)

/-- The wishes for inputs that are free. -/
def autoConfigure (free : String → Bool) : Kind → List AutoConnect
  | .morphTargets _ => MorphBlock.autoConfigure free
  | .bones _ => BonesBlock.autoConfigure free
  | .fog _ => FogBlock.autoConfigure free
  | _ => []

end Kind

/-- Runs a build of the details of a kind. -/
def Emit.within {κ μ α : Type} (wrap : μ → κ) (details : μ) (e : Emit μ α) : Emit κ α :=
  fun site =>
    let (result, after) := e (site.withKind details)
    (result, after.withKind (wrap after.kind))

namespace Kind

/-- Writes the code of a block. -/
def build : Emit Kind Unit := do
  match (← get).kind with
  | .input b => InputBlock.build.within .input b
  | .transform t => Transform.build.within .transform t
  | .vertexOutput => VertexOutput.build
  | .fragmentOutput f => FragmentOutput.build.within .fragmentOutput f
  | .math op => op.build.within .math op
  | .clamp c => Clamp.build.within .clamp c
  | .lerp => Lerp.build
  | .vectorMerger => VectorMerger.build
  | .texture t => TextureBlock.build.within .texture t
  | .morphTargets m => MorphBlock.build.within .morphTargets m
  | .bones b => BonesBlock.build.within .bones b
  | .fog f => FogBlock.build.within .fog f
  | .teleportIn => pure ()
  | .teleportOut t => TeleportOut.build.within .teleportOut t

/-! ## In programs -/

/-- Sets the defines that the kind is in charge of. -/
def prepareDefines (mesh : Mesh) (scene : Scene) : Kind → DefineSet → DefineSet
  | .fragmentOutput f, d => f.prepareDefines d
  | .morphTargets _, d => MorphBlock.prepareDefines mesh d
  | .bones _, d => BonesBlock.prepareDefines mesh d
  | .fog _, d => FogBlock.prepareDefines mesh scene d
  | _, d => d

/-- Whether a program may be made yet. -/
def isReady : Kind → Bool
  | .texture t => t.isReady
  | _ => true

def animate (scene : Scene) : Kind → Kind
  | .input b => .input (b.animate scene)
  | k => k

def bind (mesh : Mesh) (scene : Scene) : Kind → List Binding
  | .input b => b.bind mesh scene
  | .texture t => t.bind
  | .morphTargets m => m.bind mesh
  | .bones b => b.bind mesh
  | .fog f => f.bind scene
  | _ => []

/-- The categories whose change makes the text spliced in for the block stale. -/
def spliceCategories : Kind → DirtyFlags
  | .morphTargets _ => .only .attributes
  | _ => .none

/-- The anchor of the vertex stage that the kind fills, and the text. -/
def splice (d : DefineSet) (l : Language) : Kind → Option (Nat × String)
  | .morphTargets m => m.splice d l
  | _ => none

def dynamicDecls (d : DefineSet) : Kind → DynamicDecls
  | .morphTargets _ => MorphBlock.dynamicDecls d
  | .bones _ => BonesBlock.dynamicDecls d
  | _ => {}

/-- Adds what the kind can do without. -/
def fallbacks (d : DefineSet) : Kind → FallbackChain → FallbackChain
  | .bones _, chain => BonesBlock.fallbacks d chain
  | .fog _, chain => FogBlock.fallbacks d chain
  | _, chain => chain

/-- Gives up what the block holds. -/
def dispose : Kind → Kind
  | .texture t => .texture t.dispose
  | k => k

def markTextureReady : Kind → Kind
  | .texture t => .texture t.markReady
  | k => k

/-- Whether the block holds a texture; only texture blocks can. -/
def holdsTexture : Kind → Option Bool
  | .texture t => some t.texture.isSome
  | _ => none

/-! ## In documents and in exported code -/

/-- The settings of the kind, in order of name. -/
def fields : Kind → List (String × Json)
  | .input b => b.fields
  | .transform t => t.fields
  | .fragmentOutput f => f.fields
  | .clamp c => c.fields
  | .texture t => t.fields
  | .teleportOut t => t.fields
  | _ => []

/-- Takes over settings from a document. -/
def setFields? (fields : List (String × Json)) : Kind → Option Kind
  | .input _ => (InputBlock.ofFields? fields).map .input
  | .transform _ => (Transform.ofFields? fields).map .transform
  | .fragmentOutput _ => (FragmentOutput.ofFields? fields).map .fragmentOutput
  | .clamp _ => (Clamp.ofFields? fields).map .clamp
  | .texture t => (t.setFields? fields).map .texture
  | .teleportOut t => (t.setFields? fields).map .teleportOut
  | k => some k

/-- The expression that makes the block in exported code. -/
def constructorCode : Kind → String
  | .input b => b.constructorCode
  | .transform t => t.constructorCode
  | .vertexOutput => "VertexOutputBlock"
  | .fragmentOutput f => f.constructorCode
  | .math op => "BinaryMathBlock::new(MathOp::" ++ op.name ++ ")"
  | .clamp c => c.constructorCode
  | .lerp => "LerpBlock"
  | .vectorMerger => "VectorMergerBlock"
  | .texture t => t.constructorCode
  | .morphTargets _ => "MorphTargetsBlock::new()"
  | .bones _ => "BonesBlock::new()"
  | .fog _ => "FogBlock::new()"
  | .teleportIn => "TeleportInBlock"
  | .teleportOut _ => "TeleportOutBlock::new()"

end Kind

end ShaderGraph
