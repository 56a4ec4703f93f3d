import ShaderGraph.Code.Buffer
import ShaderGraph.Code.Dialect
/-!
The program of one stage while it is written, and when it is done.

Every list of declarations holds a name at most once; the first declaration of a name stays.
-/

namespace ShaderGraph

/-- The type of a uniform. -/
inductive UniformType where
  | value (type : ValueType)
  | matrixArray (size : Nat)
deriving DecidableEq, Repr

def UniformType.describe : UniformType → String
  | .value t => "Value(" ++ t.name ++ ")"
  | .matrixArray n => "MatrixArray(" ++ toString n ++ ")"

structure UniformDecl where
  name : String
  type : UniformType
deriving DecidableEq, Repr

structure AttributeDecl where
  name : String
  type : ValueType
  condition : Option Condition := none
deriving DecidableEq, Repr

structure VaryingDecl where
  name : String
  type : ValueType
  condition : Option Condition := none
deriving DecidableEq, Repr

/-- A named piece of program text, such as a constant or a function. -/
structure NamedText where
  name : String
  text : String
deriving DecidableEq, Repr

/-- Adds a declaration unless one of its name is there. -/
def declare {α : Type} (nameOf : α → String) (decl : α) (decls : List α) : List α :=
  if decls.any fun d => nameOf d == nameOf decl then decls else decls ++ [decl]

/-- Names that were distinct stay so. -/
theorem nodup_declare {α : Type} (nameOf : α → String) (decl : α) (decls : List α)
    (distinct : (decls.map nameOf).Nodup) : ((declare nameOf decl decls).map nameOf).Nodup := by
  unfold declare
  split
  next => exact distinct
  next fresh =>
    simp only [List.any_eq_true, beq_iff_eq, not_exists, not_and] at fresh
    simp only [List.map_append, List.map_cons, List.map_nil, List.nodup_append, distinct]
    grind

/-- One stage while blocks write to it. -/
structure StageDraft where
  stage : Stage
  language : Language
  comments : Bool := false
  code : CodeBuffer := {}
  attributes : List AttributeDecl := []
  uniforms : List UniformDecl := []
  samplers : List String := []
  constants : List NamedText := []
  functions : List NamedText := []
  anchors : Nat := 0
deriving Repr

/-- One stage of a finished pass. -/
structure CompiledStage where
  stage : Stage
  language : Language
  body : List Segment
  attributes : List AttributeDecl
  uniforms : List UniformDecl
  samplers : List String
  constants : List String
  functions : List String
  anchors : Nat
deriving Repr

namespace StageDraft

def push (d : StageDraft) (s : String) : StageDraft := { d with code := d.code.pushText s }

def beginIf (d : StageDraft) (c : Condition) : StageDraft := { d with code := d.code.beginIf c }

def beginElse (d : StageDraft) : Except CodeError StageDraft :=
  d.code.beginElse.map fun code => { d with code }

def endIf (d : StageDraft) : Except CodeError StageDraft :=
  d.code.endIf.map fun code => { d with code }

/-- Puts the next anchor at the current place; its number is the count before. -/
def pushAnchor (d : StageDraft) : StageDraft :=
  { d with code := d.code.pushAnchor d.anchors, anchors := d.anchors + 1 }

/-- A comment line, if comments are asked for. -/
def comment (d : StageDraft) (text : String) : StageDraft :=
  if d.comments then d.push ("// " ++ text ++ "\n") else d

def addUniform (d : StageDraft) (name : String) (type : ValueType) : StageDraft :=
  { d with uniforms := declare UniformDecl.name ⟨name, .value type⟩ d.uniforms }

def addAttribute (d : StageDraft) (decl : AttributeDecl) : StageDraft :=
  { d with attributes := declare AttributeDecl.name decl d.attributes }

def addSampler (d : StageDraft) (name : String) : StageDraft :=
  { d with samplers := declare id name d.samplers }

def addConstant (d : StageDraft) (name : String) (type : ValueType) (literal : String) :
    StageDraft :=
  { d with
    constants := declare NamedText.name ⟨name, d.language.declareConst name type literal⟩
      d.constants }

def addFunction (d : StageDraft) (name code : String) : StageDraft :=
  { d with functions := declare NamedText.name ⟨name, code⟩ d.functions }

/-- The finished stage, if every region is closed. -/
def finish (d : StageDraft) : Except CodeError CompiledStage :=
  d.code.segments.map fun body =>
    { stage := d.stage, language := d.language, body, attributes := d.attributes,
      uniforms := d.uniforms, samplers := d.samplers,
      constants := d.constants.map NamedText.text,
      functions := d.functions.map NamedText.text, anchors := d.anchors }

end StageDraft

namespace CompiledStage

/-- The stage as text: its declarations, then the code with directives and anchor marks. -/
def template (s : CompiledStage) : String :=
  let line (kind text : String) := "//" ++ kind ++ " " ++ text ++ "\n"
  String.join (s.attributes.map fun a => line "attribute" (a.name ++ " " ++ a.type.name)) ++
    String.join (s.uniforms.map fun u => line "uniform" (u.name ++ " " ++ u.type.describe)) ++
    String.join (s.samplers.map (line "sampler")) ++
    String.join s.constants ++ String.join s.functions ++ Segment.templates s.body

end CompiledStage

end ShaderGraph
