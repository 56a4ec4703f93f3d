import ShaderGraph.Document.Load
import ShaderGraph.Document.Save
import ShaderGraph.Material.Build
import ShaderGraph.Program.DrawTarget
import ShaderGraph.Program.Registration
/-!
A session with one material: numbered targets and registrations, and a scripted backend.

A target or a registration comes into being when its number is first used.
-/

namespace ShaderGraph

structure Session where
  material : Material
  targets : List (Nat × DrawTarget) := []
  registrations : List (Nat × Registration) := []
  backend : Scripted := {}
  /-- Failures that were reported, for those who watch. -/
  reported : List String := []

namespace Session

def graph (s : Session) : Graph := s.material.graph

def setGraph (s : Session) (graph : Graph) : Session :=
  { s with material := { s.material with graph } }

/-- The target of a number. -/
def target (s : Session) (n : Nat) : DrawTarget := (Keyed.get? n s.targets).getD {}

def setTarget (s : Session) (n : Nat) (t : DrawTarget) : Session :=
  { s with targets := Keyed.insert n t s.targets }

def registration (s : Session) (n : Nat) : Registration := (Keyed.get? n s.registrations).getD {}

/-- Brings a target up to date. -/
def ready (s : Session) (n : Nat) (mesh : Mesh) (scene : Scene) : Bool × Session :=
  let r := s.material.ready .scripted (s.target n) mesh scene s.backend
  (r.ready,
    { s with
      material := r.material, backend := r.backend, reported := s.reported ++ r.reports }.setTarget
      n r.target)

/-- Sends the current values to the program of a target. -/
def bind (s : Session) (n : Nat) (mesh : Mesh) (scene : Scene) :
    Except MaterialError (List Binding) × Session :=
  let (sent, material, target) := s.material.bind (s.target n) mesh scene
  (sent, { s with material }.setTarget n target)

/-- Brings a registration up to date. -/
def sync (s : Session) (n : Nat) (d : DefineSet) : Except MaterialError Bool × Session :=
  let (result, r, backend) := (s.registration n).sync s.material d .scripted s.backend
  (result, { s with registrations := Keyed.insert n r s.registrations, backend })

def build (s : Session) : Except MaterialError CompiledGraph × Session :=
  let (result, material) := s.material.build
  (result, { s with material })

/-- Loads the text of a document, without what its outputs do not reach if `shake`. -/
def load (s : Session) (text : String) (merge shake : Bool) : Except LoadError IdMap × Session :=
  match Document.parse text with
  | .error fault => (.error (.document fault), s)
  | .ok d =>
    let (result, material) := s.material.load (if shake then d.shake else d) .builtin merge
    (result, { s with material })

/-- Saves the material and puts in its place what the saved text describes. After a failure the old
material stays, but the identities given to blocks are not used again. -/
def reload (s : Session) : Except LoadError Unit × Session :=
  match Document.parse s.material.save with
  | .error fault => (.error (.document fault), s)
  | .ok d =>
    match Material.ofDocument d .builtin s.graph.nextId with
    | (.error e, nextId) => (.error e, s.setGraph { s.graph with nextId })
    | (.ok material, _) => (.ok (), { s with material })

end Session

end ShaderGraph
