import ShaderGraph.Host.FileTree
import ShaderGraph.Program.Backend
/-!
What a command needs from the machine that it runs on, and the machine that is a file tree.
-/

namespace ShaderGraph

/-- The operations of a machine. Creating and writing say whether they worked. -/
structure Host (m : Type → Type) where
  /-- The text of a file, if it can be read. -/
  read : String → m (Option String)
  /-- Creates a folder and those on the way to it; a folder that is there already is fine. -/
  createFolders : String → m Bool
  write : String → String → m Bool
  print : String → m Unit
  /-- Reads a program as a graphics card would; a program that is not accepted has a message. -/
  check : ProgramSource → Except String Unit

namespace FileTree

/-- Keeps the tree if a change fails. -/
def attempt (change : FileTree → Option FileTree) : StateM FileTree Bool := fun t =>
  match change t with
  | none => (false, t)
  | some u => (true, u)

/-- A file tree as a machine; what it prints is lost, and every program is accepted. -/
def host : Host (StateM FileTree) where
  read path := fun t => (t.read? path, t)
  createFolders path := attempt fun t => t.createFolders path
  write path text := attempt fun t => t.write path text
  print _ := pure ()
  check _ := .ok ()

end FileTree

end ShaderGraph
