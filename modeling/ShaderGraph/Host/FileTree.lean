import ShaderGraph.Keyed
/-!
A tree of folders and files in memory, and the rules by which a path names a place in it.

A path is followed name by name, and each step needs the place before it to be a folder, so a
slash after a file leads nowhere. `FileTree.read?_of_write` says that a file that was written can
be read by the same path.
-/

namespace ShaderGraph

/-- A place in a file tree: the names on the way to it from the top folder. -/
abbrev Place := List String

namespace Path

/-- The names of a path, which stand between its slashes. -/
def names (path : String) : List String := path.splitOn "/"

/-- Whether a path can be given to a file system at all: it has at least one byte, no zero byte,
    and fewer bytes than the longest path has. -/
def isUsable (path : String) : Bool :=
  path != "" && !path.toList.contains '\x00' && path.utf8ByteSize < 4096

/-- Whether the last name of a path is a single dot. A folder cannot be created by such a path. -/
def endsInDot (path : String) : Bool :=
  ((names path).reverse.dropWhile (· = "")).head? = some "."

/-- The path of a file in a folder. An absolute path leaves the folder out of account. -/
def join (dir file : String) : String :=
  if file.startsWith "/" then file
  else if dir = "" || dir.endsWith "/" then dir ++ file
  else dir ++ "/" ++ file

end Path

/-- Folders and files by place. The top folder is always there. -/
structure FileTree where
  /-- The folder where a path starts that is not absolute. -/
  home : Place := []
  folders : List Place := []
  files : List (Place × String) := []
deriving DecidableEq, Repr

namespace FileTree

def isFolder (t : FileTree) (p : Place) : Bool := p = [] || t.folders.contains p

/-- One step along a path. Two dots lead to the folder above, which for the top is the top. -/
def step (t : FileTree) (p : Place) (name : String) : Option Place :=
  if !t.isFolder p then none
  else if name = "" || name = "." then some p
  else if name = ".." then some p.dropLast
  else if name.utf8ByteSize ≤ 255 then some (p ++ [name])
  else none

/-- Where a path starts. -/
def start (t : FileTree) (path : String) : Place := if path.startsWith "/" then [] else t.home

/-- The place that a path names, whether or not something is there. -/
def locate? (t : FileTree) (path : String) : Option Place :=
  if Path.isUsable path then (Path.names path).foldlM t.step (t.start path) else none

/-- The text of a file. -/
def read? (t : FileTree) (path : String) : Option String :=
  match t.locate? path with
  | none => none
  | some p => Keyed.get? p t.files

/-- Writes a file, new or not, in a folder that is there. -/
def write (t : FileTree) (path text : String) : Option FileTree :=
  match t.locate? path with
  | none => none
  | some p => if t.isFolder p then none else some { t with files := Keyed.insert p text t.files }

/-- Goes along names and creates each folder on the way that is missing. -/
def createFrom (t : FileTree) (p : Place) : List String → Option FileTree
  | [] => some t
  | name :: rest =>
    match t.step p name with
    | none => none
    | some q =>
      if t.isFolder q then t.createFrom q rest
      else if (Keyed.get? q t.files).isSome then none
      else { t with folders := t.folders ++ [q] }.createFrom q rest

/-- Creates a folder and those on the way to it. -/
def createFolders (t : FileTree) (path : String) : Option FileTree :=
  if Path.endsInDot path then
    match t.locate? path with
    | some p => if t.isFolder p then some t else none
    | none => none
  else if Path.isUsable path then t.createFrom (t.start path) (Path.names path)
  else none

/-- A file tree that has a file under the home folder, with the folders on the way to it. -/
def addFile (t : FileTree) (path text : String) : FileTree :=
  let p := t.home ++ (Path.names path).filter fun name => name ≠ "" && name ≠ "."
  let above := (List.range p.length).map p.take
  { t with folders := t.folders ++ above, files := Keyed.insert p text t.files }

/-- A home folder with files, by their paths. -/
def ofFiles (files : List (String × String)) : FileTree :=
  files.foldl (fun t (path, text) => t.addFile path text)
    { home := ["home"], folders := [["home"]] }

/-- Name and text of the files in a folder, in increasing order of their names. -/
def listing (t : FileTree) (path : String) : List (String × String) :=
  match t.locate? path with
  | none => []
  | some folder =>
    t.files.filterMap fun (p, text) =>
      if p.dropLast = folder then p.getLast?.map fun name => (name, text) else none

/-- A change of the files leaves every path where it is. -/
theorem locate?_files (t : FileTree) (files : List (Place × String)) (path : String) :
    { t with files }.locate? path = t.locate? path := rfl

/-- A file that was written can be read by the same path. -/
theorem read?_of_write {t u : FileTree} {path text : String} (h : t.write path text = some u) :
    u.read? path = some text := by
  unfold write at h
  split at h
  · cases h
  · next p hp =>
    split at h
    · cases h
    · cases h
      simp [read?, locate?_files, hp, Keyed.get?_insert]

end FileTree

end ShaderGraph
