import ShaderGraph.Document.Load
import ShaderGraph.Export.Code
import ShaderGraph.Host.Basic
import ShaderGraph.Material.Build
import ShaderGraph.Material.Preset
import ShaderGraph.Program.DrawTarget
/-!
The command line: compile a document, or the graph that a mode starts with, into a program.
-/

namespace ShaderGraph

/-- What the command line asks for. -/
structure Command where
  graphPath : Option String := none
  outputDir : Option String := none
  language : Language := .wgsl
  comments : Bool := false
  /-- Whether code is exported instead of a program. -/
  exportCode : Bool := false
  mode : Option Mode := none
deriving DecidableEq, Repr

/-- Why a command fails. -/
inductive CommandError where
  | missingValue (flag : String)
  | unknownArgument (argument : String)
  | unknownWord (cause : UnknownWord)
  | unreadable (path : String)
  | document (cause : Document.Fault)
  | load (path : String) (cause : LoadError)
  | graph (cause : GraphError)
  | material (cause : MaterialError)
  /-- The program does not pass the check of its text. -/
  | invalid (message : String)
  | nothingToCompile
  | folderNotCreated (path : String)
  | notWritten (path : String)
deriving DecidableEq, Repr

def CommandError.message : CommandError → String
  | .missingValue flag => "missing value for " ++ flag
  | .unknownArgument argument =>
    "unknown argument: " ++ argument ++
      " (supported: --graph-json <graph.json>, --default <mode>, --output-dir <dir>, " ++
      "--language wgsl|glsl, --emit-comments, --codegen)"
  | .unknownWord cause => cause.message
  | .unreadable path => "failed to read graph json at " ++ path
  | .document cause => cause.message
  | .load path cause => "failed to load material from " ++ path ++ ": " ++ cause.message
  | .graph cause => cause.message
  | .material cause => cause.message
  | .invalid message => message
  | .nothingToCompile => "nothing to compile"
  | .folderNotCreated path => "failed to create output dir " ++ path
  | .notWritten path => "failed to write " ++ path

/-- What a command produces. -/
inductive Outcome where
  | code (text : String)
  | program (name : String) (source : ProgramSource)
deriving Repr

namespace Command

/-- Takes one flag after another; a later one replaces an earlier one of its kind. -/
def parseFrom (c : Command) : List String → Except CommandError Command
  | [] => .ok c
  | "--graph-json" :: rest =>
    match rest with
    | [] => .error (.missingValue "--graph-json")
    | v :: rest => parseFrom { c with graphPath := some v } rest
  | "--outputdir" :: rest | "--output-dir" :: rest =>
    match rest with
    | [] => .error (.missingValue "--output-dir")
    | v :: rest => parseFrom { c with outputDir := some v } rest
  | "--language" :: rest =>
    match rest with
    | [] => .error (.missingValue "--language")
    | v :: rest =>
      match Language.parse v with
      | .ok language => parseFrom { c with language } rest
      | .error e => .error (.unknownWord e)
  | "--default" :: rest =>
    match rest with
    | [] => .error (.missingValue "--default")
    | v :: rest =>
      match Mode.parse v with
      | .ok mode => parseFrom { c with mode := some mode } rest
      | .error e => .error (.unknownWord e)
  | "--emit-comments" :: rest => parseFrom { c with comments := true } rest
  | "--codegen" :: rest => parseFrom { c with exportCode := true } rest
  | other :: _ => .error (.unknownArgument other)

/-- Reads the arguments. Without a document and without a mode, the mode is that of a mesh. -/
def parse (arguments : List String) : Except CommandError Command := do
  let c ← parseFrom {} arguments
  if c.graphPath.isNone && c.mode.isNone then return { c with mode := some .material }
  return c

def options (c : Command) : Options := { comments := c.comments, language := c.language }

/-- The material to compile; `text` is that of the document, if it could be read. -/
def material (c : Command) (text : Option String) : Except CommandError Material :=
  match c.graphPath, c.mode with
  | some path, _ =>
    match text with
    | none => .error (.unreadable path)
    | some text =>
      match Document.parse text with
      | .error e => .error (.document e)
      | .ok d =>
        match (Material.ofDocument d .builtin 1).1 with
        | .error e => .error (.load path e)
        | .ok m => .ok { m with options := c.options }
  | none, some mode =>
    match ({ name := mode.name } : Material).setToDefault mode with
    | .error e => .error (.graph e)
    | .ok m => .ok { m with options := c.options }
  | none, none => .error .nothingToCompile

/-- A mesh with normals and one set of texture coordinates. -/
def plainMesh : Mesh := { normals := true, uvSets := 1 }

/-- The program of a material for a plain mesh, if it passes a check. It does not matter whether
the target is ready then. -/
def compile {σ : Type} (b : Backend σ) (s : σ) (check : ProgramSource → Except String Unit)
    (m : Material) : Except CommandError ProgramSource := do
  let (result, m) := m.build
  let c ← result.mapError .material
  c.check.mapError .material
  let r := m.ready b {} plainMesh {} s
  let source ← (r.material.programSource r.target.defines).mapError .material
  (check source).mapError .invalid
  return source

/-- What the command produces from the text of its document, if that could be read. Programs are
judged at once, by the same check. -/
def run (c : Command) (check : ProgramSource → Except String Unit) (text : Option String) :
    Except CommandError Outcome := do
  let m ← c.material text
  if c.exportCode then return .code m.listing.text
  return .program m.name (← compile (.immediate (.ofCheck check)) {} check m)

end Command

namespace Outcome

variable {m : Type → Type} [Monad m]

/-- The files of a program by name. -/
def files (name : String) (source : ProgramSource) : List (String × String) :=
  [(name ++ ".vertex." ++ source.language.tag, source.vertex),
    (name ++ ".fragment." ++ source.language.tag, source.fragment)]

/-- Writes files into a folder that is there, up to the first that cannot be written. -/
def writeFiles (host : Host m) (dir : String) :
    List (String × String) → m (Except CommandError Unit)
  | [] => return .ok ()
  | (file, text) :: rest => do
    let path := Path.join dir file
    if ← host.write path text then
      host.print ("[compile] saved: " ++ path ++ "\n")
      writeFiles host dir rest
    else return .error (.notWritten path)

/-- Prints an outcome, or writes the files of a program into a folder. The empty path stands for
    the folder where the command runs, which is there. -/
def deliver (host : Host m) (outputDir : Option String) : Outcome → m (Except CommandError Unit)
  | .code text => do
    host.print text
    return .ok ()
  | .program name source =>
    match outputDir with
    | none => do
      host.print ("// vertex\n" ++ source.vertex ++ "\n")
      host.print ("// fragment\n" ++ source.fragment ++ "\n")
      return .ok ()
    | some dir => do
      let ready ← if dir = "" then pure true else host.createFolders dir
      if ready then writeFiles host dir (files name source)
      else return .error (.folderNotCreated dir)

end Outcome

/-- Does what the command asks for. -/
def Command.perform {m : Type → Type} [Monad m] (host : Host m) (c : Command) :
    m (Except CommandError Outcome) := do
  let text ← match c.graphPath with
    | some path => host.read path
    | none => pure none
  match c.run host.check text with
  | .error e => return .error e
  | .ok outcome =>
    match ← outcome.deliver host c.outputDir with
    | .error e => return .error e
    | .ok _ => return .ok outcome

end ShaderGraph
