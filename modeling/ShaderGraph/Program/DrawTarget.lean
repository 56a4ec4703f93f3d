import ShaderGraph.Program.Trial
/-!
The things drawn with a material.

Each has a `DrawTarget` with its own defines and its own program. `Material.ready` brings the
target up to date: it sets the defines, and if they changed finds or makes the program for them.
`Material.bind` sends the current values to the program.

A program of an earlier pass is never taken up once there is a later pass. It may stay in use only
until a current one is ready.
-/

namespace ShaderGraph

/-- One thing that is drawn with a material. -/
structure DrawTarget where
  defines : DefineSet := {}
  /-- The pass that the target was last specialised for. -/
  pass : PassId := .first
  fills : StageFills := {}
  /-- The blocks whose text is in `fills`. -/
  spliced : List BlockId := []
  active : Option Installed := none
  /-- The program that will replace the active one when it is ready. -/
  pending : Option Installed := none
  stats : Stats := {}
  lastBound : Option ProgramHandle := none
deriving DecidableEq, Repr

namespace DrawTarget

/-- Takes up the result of a later pass; nothing that was spliced in for an earlier one stays. -/
def moveTo (t : DrawTarget) (pass : PassId) : DrawTarget :=
  if t.pass = pass then t
  else
    { t with
      defines := t.defines.markAllDirty, fills := {}, spliced := [], pending := none, pass }

def install (t : DrawTarget) (program : Installed) : DrawTarget :=
  { t with active := some program, pending := none }

/-- Splices in the text of a block again if there is none yet or a change made it stale. -/
def refresh (l : Language) (dirty : DirtyFlags) (t : DrawTarget) (block : Block) : DrawTarget :=
  if t.spliced.contains block.id && !block.kind.spliceCategories.intersects dirty then t
  else
    { t with
      fills := t.fills.splice block.kind t.defines l
      spliced := pushNew block.id t.spliced
      stats := { t.stats with splices := t.stats.splices + 1 } }

/-- Marks the changes as processed and splices in what they made stale. -/
def refreshAll (t : DrawTarget) (c : CompiledGraph) (g : Graph) : DrawTarget :=
  let dirty := t.defines.dirty
  (c.participants g .repeatable).foldl (refresh c.language dirty)
    { t with defines := t.defines.markProcessed }

/-- Takes up the program that was found, unless the old one is better for now. -/
def adopt (t : DrawTarget) (hotSwap activeReady : Bool) (program : Installed) :
    ProgramStatus → DrawTarget
  | .pending =>
    let t := if hotSwap && activeReady then { t with pending := some program }
      else t.install program
    { t with defines := t.defines.markUnprocessed }
  | .failed _ => if activeReady then { t with pending := none } else t.install program
  | .ready => t.install program

end DrawTarget

/-- The result of bringing a target up to date. -/
structure Readiness (σ : Type) where
  ready : Bool
  material : Material
  target : DrawTarget
  backend : σ
  /-- Failures that were noticed for the first time. -/
  reports : List String := []

namespace Material

variable {σ : Type}

/-- Whether the program in use is ready. -/
def activeReady (b : Backend σ) (t : DrawTarget) (s : σ) : Bool × σ :=
  match t.active with
  | none => (false, s)
  | some p =>
    let (status, s) := b.poll p.handle s
    (status.isReady, s)

/-- Looks whether the program that a target waits for has become ready. -/
def awaitPending (b : Backend σ) (t : DrawTarget) (s : σ) : DrawTarget × σ :=
  let t := { t with stats := { t.stats with cacheHits := t.stats.cacheHits + 1 } }
  match t.pending with
  | none => (t, s)
  | some p =>
    let (status, s) := b.poll p.handle s
    (if status.isReady then t.install p else t, s)

/-- Finds the program for the changed defines of a target. -/
def specialize (m : Material) (b : Backend σ) (c : CompiledGraph) (t : DrawTarget) (s : σ) :
    Readiness σ :=
  let t := t.refreshAll c m.graph
  let chain := c.fallbackChain m.graph t.defines
  let trial : Trial σ := { cache := m.cache, backend := s, stats := t.stats }
  let ((program, status), trial) := trial.attempt b c m.graph chain.steps t.defines t.fills
  let t := { t with stats := trial.stats }
  let (kept, s) := activeReady b t trial.backend
  { ready := kept
    material := { m with cache := trial.cache }
    target := t.adopt m.options.hotSwap kept program status
    backend := s
    reports := trial.reports }

/-- Brings a target up to date and tells whether it can be drawn. -/
def ready (m : Material) (b : Backend σ) (t : DrawTarget) (mesh : Mesh) (scene : Scene) (s : σ) :
    Readiness σ :=
  match m.compiled with
  | none => { ready := false, material := m, target := t, backend := s }
  | some c =>
    if !c.isSuccessful then { ready := false, material := m, target := t, backend := s }
    else
      let t := t.moveTo c.pass
      if !(c.participants m.graph .blocking).all fun block => block.kind.isReady then
        { ready := false, material := m, target := t, backend := s }
      else
        let t := { t with defines := c.prepareDefines m.graph mesh scene t.defines }
        let r : Readiness σ :=
          if t.defines.isDirty then m.specialize b c t s
          else
            let (t, s) := awaitPending b t s
            { ready := false, material := m, target := t, backend := s }
        let (ready, s) := activeReady b r.target r.backend
        { r with ready, backend := s, reports := if m.watched then r.reports else [] }

/-! ## Sending values -/

/-- Moves the animated inputs on. -/
def animate (g : Graph) (ids : List BlockId) (scene : Scene) : Graph :=
  ids.foldl (fun g id => g.modify id fun b => { b with kind := b.kind.animate scene }) g

/-- Sends the current values to the program of a target: inputs, then other values, then those that
are sent every time. -/
def bind (m : Material) (t : DrawTarget) (mesh : Mesh) (scene : Scene) :
    Except MaterialError (List Binding) × Material × DrawTarget :=
  match m.compiled, t.active with
  | none, _ => (.error .notBuilt, m, t)
  | some _, none => (.ok [], m, t)
  | some c, some active =>
    let graph := animate m.graph (c.roster.blocks .animated) scene
    let of (role : Role) : List Binding :=
      (c.participants graph role).flatMap fun b => b.kind.bind mesh scene
    let unchanged := t.lastBound == some active.handle
    let usual := if m.options.frozen && unchanged then [] else of .input ++ of .bindable
    (.ok (usual ++ of .forcedBindable), { m with graph },
      { t with lastBound := some active.handle })

end Material

end ShaderGraph
