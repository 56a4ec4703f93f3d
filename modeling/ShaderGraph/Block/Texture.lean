import ShaderGraph.Block.Site
/-!
Reading a two-dimensional texture.
-/

namespace ShaderGraph

/-- A texture that is loaded elsewhere. -/
structure Texture where
  url : String
  ready : Bool := false
deriving DecidableEq, Repr

structure TextureBlock where
  url : Option String := none
  texture : Option Texture := none
  /-- The sampler that the last pass gave to the block. -/
  samplerName : String := ""
deriving DecidableEq, Repr

namespace TextureBlock

def ofTexture (t : Texture) : TextureBlock := { url := some t.url, texture := some t }

def inputs : List SocketSpec :=
  [{ name := "uv", type := .vector2, accepted := [.vector3, .vector4] }]

def outputs : List SocketSpec :=
  [{ name := "rgba", type := .color4 }, { name := "rgb", type := .color3 },
    { name := "r", type := .float }, { name := "g", type := .float },
    { name := "b", type := .float }, { name := "a", type := .float }]

/-- Outputs and the part of the sample each of them reads. -/
def swizzles : List (String × String) :=
  [("rgba", ""), ("rgb", ".rgb"), ("r", ".r"), ("g", ".g"), ("b", ".b"), ("a", ".a")]

/-- Declares one output, if something reads it. -/
def emitPart (sample : String) (part : String × String) : Emit TextureBlock Unit := do
  if (← Emit.output part.1).connected then Emit.declareOutput part.1 (sample ++ part.2)

def build : Emit TextureBlock Unit := do
  let sampler ← Emit.freshVariable (← get).blockName
  Emit.setKind { (← get).kind with samplerName := sampler }
  Emit.modifyDraft (·.addSampler sampler)
  Emit.enter .texture
  Emit.enter .bindable
  Emit.enter .blocking
  let uv ← Emit.input "uv"
  let coordinates := if uv.type = .vector2 then uv.symbol else uv.symbol ++ ".xy"
  let sample ← Emit.freshVariable "tempTextureRead"
  let l ← Emit.language
  let read := l.sample (← Emit.stage) sampler coordinates
  Emit.push (l.declareLet sample .vector4 read)
  swizzles.forM (emitPart sample)

/-- A block without a texture is ready. -/
def isReady (b : TextureBlock) : Bool := b.texture.all Texture.ready

def markReady (b : TextureBlock) : TextureBlock :=
  { b with texture := b.texture.map fun t => { t with ready := true } }

def bind (b : TextureBlock) : List Binding :=
  if b.samplerName.isEmpty then []
  else b.texture.toList.map fun t => (b.samplerName, .texture t.url)

def dispose (b : TextureBlock) : TextureBlock := { b with texture := none }

def fields (b : TextureBlock) : List (String × Json) :=
  b.url.toList.map fun u => ("textureUrl", .string u)

/-- Reads the address; the texture behind it is yet to be loaded. -/
def setFields? (b : TextureBlock) (fields : List (String × Json)) : Option TextureBlock := do
  let url ← Json.optionalField? fields "textureUrl" Json.string?
  return { b with url, texture := url.map fun u => { url := u } }

def constructorCode (b : TextureBlock) : String :=
  match b.url with
  | some url => "TextureBlock::with_texture(TextureHandle::new(" ++ Text.quote url ++ "))"
  | none => "TextureBlock::new()"

end TextureBlock

end ShaderGraph
