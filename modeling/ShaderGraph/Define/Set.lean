import ShaderGraph.Keyed
/-!
Define sets: the named switches and counts that a program is specialised for, with a record of
which categories changed since the set was last processed.

A new set is dirty in every category, so the first look at it always does the work.
`DefineSet.signature` is the text that identifies the program of a set.
-/

namespace ShaderGraph

/-- The value of a define. -/
inductive DefineValue where
  | flag (on : Bool)
  | count (n : Int)
deriving DecidableEq, Repr

/-- What a define depends on; dirtiness is tracked by category. -/
inductive DefineCategory where
  | attributes
  | misc
  | textures
  | lights
  | prepass
deriving DecidableEq, Repr

namespace DefineCategory

def all : List DefineCategory := [.attributes, .misc, .textures, .lights, .prepass]

def name : DefineCategory → String
  | .attributes => "Attributes"
  | .misc => "Misc"
  | .textures => "Textures"
  | .lights => "Lights"
  | .prepass => "Prepass"

def ofName? (s : String) : Option DefineCategory := all.find? fun c => c.name == s

end DefineCategory

/-- A set of categories. -/
structure DirtyFlags where
  attributes : Bool := false
  misc : Bool := false
  textures : Bool := false
  lights : Bool := false
  prepass : Bool := false
deriving DecidableEq, Repr, Inhabited

namespace DirtyFlags

def none : DirtyFlags := {}

def all : DirtyFlags := ⟨true, true, true, true, true⟩

def contains (f : DirtyFlags) : DefineCategory → Bool
  | .attributes => f.attributes
  | .misc => f.misc
  | .textures => f.textures
  | .lights => f.lights
  | .prepass => f.prepass

def set (f : DirtyFlags) : DefineCategory → DirtyFlags
  | .attributes => { f with attributes := true }
  | .misc => { f with misc := true }
  | .textures => { f with textures := true }
  | .lights => { f with lights := true }
  | .prepass => { f with prepass := true }

def only (c : DefineCategory) : DirtyFlags := none.set c

/-- The categories in the set, in their fixed order. -/
def toList (f : DirtyFlags) : List DefineCategory := DefineCategory.all.filter f.contains

def any (f : DirtyFlags) : Bool := DefineCategory.all.any f.contains

def intersects (f g : DirtyFlags) : Bool :=
  DefineCategory.all.any fun c => f.contains c && g.contains c

theorem contains_set (f : DirtyFlags) (c d : DefineCategory) :
    (f.set c).contains d = (c == d || f.contains d) := by
  cases c <;> cases d <;> rfl

end DirtyFlags

/-- Values of defines by name, and what changed since the set was last processed. -/
structure DefineSet where
  values : List (String × DefineValue) := []
  dirty : DirtyFlags := .all
  /-- Whether the set must be processed again, even if no category is dirty. -/
  isDirty : Bool := true
  lightsDisposed : Bool := false
deriving DecidableEq, Repr, Inhabited

namespace DefineSet

def get? (d : DefineSet) (name : String) : Option DefineValue := Keyed.get? name d.values

def markDirty (d : DefineSet) (c : DefineCategory) : DefineSet :=
  { d with dirty := d.dirty.set c, isDirty := true }

def markAllDirty (d : DefineSet) : DefineSet := { d with dirty := .all, isDirty := true }

def markLightsDisposed (d : DefineSet) : DefineSet :=
  { d with lightsDisposed := true }.markDirty .lights

def markProcessed (d : DefineSet) : DefineSet :=
  { d with dirty := .none, isDirty := false, lightsDisposed := false }

/-- Asks for another look without making any category dirty. -/
def markUnprocessed (d : DefineSet) : DefineSet := { d with isDirty := true }

/-- Sets a value and leaves the record of changes alone. -/
def setQuiet (d : DefineSet) (name : String) (v : DefineValue) : DefineSet :=
  { d with values := Keyed.insert name v d.values }

/-- Whether `put` would change the set. -/
def changes (d : DefineSet) (name : String) (v : DefineValue) : Bool := d.get? name != some v

/-- Sets a value; its category becomes dirty if the value is a new one. -/
def put (d : DefineSet) (name : String) (v : DefineValue) (c : DefineCategory) : DefineSet :=
  if d.changes name v then (d.setQuiet name v).markDirty c else d

def putFlag (d : DefineSet) (name : String) (on : Bool) (c : DefineCategory) : DefineSet :=
  d.put name (.flag on) c

def putCount (d : DefineSet) (name : String) (n : Nat) (c : DefineCategory) : DefineSet :=
  d.put name (.count n) c

/-- Switches defines off, whatever they were, and leaves the record of changes alone. -/
def switchOff (d : DefineSet) (names : List String) : DefineSet :=
  names.foldl (fun d n => d.setQuiet n (.flag false)) d

/-- Setting a value changes the look-up of its own name and of no other. -/
theorem get?_setQuiet (d : DefineSet) (name other : String) (v : DefineValue) :
    (d.setQuiet name v).get? other = if name = other then some v else d.get? other :=
  Keyed.get?_insert d.values name other v

/-- So does `put`, whether or not the value is a new one. -/
theorem get?_put (d : DefineSet) (name other : String) (v : DefineValue) (c : DefineCategory) :
    (d.put name v c).get? other = if name = other then some v else d.get? other := by
  unfold put
  split
  next => exact d.get?_setQuiet name other v
  next same =>
    simp only [changes, bne_iff_ne, ne_eq, Decidable.not_not] at same
    split
    next equal => rw [← equal, same]
    next => rfl

theorem get?_switchOff (d : DefineSet) (names : List String) (name : String) :
    (d.switchOff names).get? name =
      if name ∈ names then some (.flag false) else d.get? name := by
  induction names generalizing d with
  | nil => rfl
  | cons head rest ih =>
    have step : d.switchOff (head :: rest) = (d.setQuiet head (.flag false)).switchOff rest := rfl
    rw [step, ih, get?_setQuiet]
    grind

/-- Flags that are on and counts of any size are defined. -/
def isDefined (d : DefineSet) (name : String) : Bool :=
  match d.get? name with
  | some (.flag on) => on
  | some (.count _) => true
  | none => false

/-- The count of a define; a flag counts as one when it is on. -/
def count (d : DefineSet) (name : String) : Int :=
  match d.get? name with
  | some (.count n) => n
  | some (.flag true) => 1
  | _ => 0

/-- The line of one define; a flag that is off has none. -/
def line (name : String) : DefineValue → String
  | .flag true => "#define " ++ name ++ "\n"
  | .flag false => ""
  | .count n => "#define " ++ name ++ " " ++ toString n ++ "\n"

/-- The defines as text, in order of name. -/
def signature (d : DefineSet) : String :=
  d.values.foldl (fun out (name, v) => out ++ line name v) ""

end DefineSet

/-- Steps by which a program is made simpler when it is rejected; the lowest rank goes first. -/
structure FallbackChain where
  steps : List (Nat × List String) := []
deriving DecidableEq, Repr, Inhabited

namespace FallbackChain

/-- Adds a define to the step of its rank, once. -/
def add (chain : FallbackChain) (rank : Nat) (name : String) : FallbackChain :=
  let names := (Keyed.get? rank chain.steps).getD []
  ⟨Keyed.insert rank (if names.contains name then names else names ++ [name]) chain.steps⟩

/-- Takes the lowest step off and switches its defines off. -/
def reduce (chain : FallbackChain) (d : DefineSet) :
    Option (List String × FallbackChain × DefineSet) :=
  match chain.steps with
  | [] => none
  | (_, names) :: rest =>
    some (names, ⟨rest⟩, d.switchOff names)

end FallbackChain

end ShaderGraph
