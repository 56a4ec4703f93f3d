import ShaderGraph.Block.Kind
/-!
The kinds that documents may name, by tag.
-/

namespace ShaderGraph

open Number

/-- What a new block of each tag looks like, in order of tag. -/
structure Registry where
  entries : List (String × Kind) := []
deriving Repr

namespace Registry

def empty : Registry := {}

/-- Adds a tag or changes what it stands for. -/
def register (r : Registry) (tag : String) (kind : Kind) : Registry :=
  ⟨Keyed.insert tag kind r.entries⟩

/-- Every kind under its own name. A new input is the constant zero. -/
def builtin : Registry :=
  let kinds : List Kind :=
    [.input (.ofConstant (.float Binary.zero)), .transform {}, .vertexOutput, .fragmentOutput {}] ++
      MathOp.all.map .math ++
      [.clamp {}, .lerp, .vectorMerger, .texture {}, .morphTargets {}, .bones {}, .fog {},
        .teleportIn, .teleportOut {}]
  kinds.foldl (fun r k => r.register k.className k) empty

def find? (r : Registry) (tag : String) : Option Kind := Keyed.get? tag r.entries

def contains (r : Registry) (tag : String) : Bool := (r.find? tag).isSome

def tags (r : Registry) : List String := r.entries.map Prod.fst

/-- The tags as people read them. -/
def describe (r : Registry) : String :=
  "\x7b" ++ Value.commaList (r.tags.map Text.quote) ++ "\x7d"

end Registry

/-- A tag that no kind has. -/
structure UnknownKind where
  tag : String
deriving DecidableEq, Repr

def UnknownKind.message (e : UnknownKind) : String := "unknown block type: " ++ e.tag

/-- A new block of a tag. -/
def Registry.create (r : Registry) (tag : String) : Except UnknownKind Kind :=
  match r.find? tag with
  | some kind => .ok kind
  | none => .error ⟨tag⟩

end ShaderGraph
