import ShaderGraph.Program.Backend
import ShaderGraph.Program.Variant
/-!
Finding a program that the backend takes.

A program that was made before for the same pass and the same defines is used again. One that is
rejected is tried again with fewer features, along the fallback chain, and its failure is reported
once.
-/

namespace ShaderGraph

/-- Counts of what was done for a target. -/
structure Stats where
  /-- Checks that found nothing to do. -/
  cacheHits : Nat := 0
  /-- Blocks whose text was spliced in again. -/
  splices : Nat := 0
  /-- Programs handed over. -/
  compiles : Nat := 0
  fallbacksApplied : Nat := 0
deriving DecidableEq, Repr, Inhabited

/-- What changes while a program is looked for. -/
structure Trial (σ : Type) where
  cache : ProgramCache
  backend : σ
  stats : Stats
  /-- The failures reported so far. -/
  reports : List String := []

namespace Trial

variable {σ : Type}

/-- Finds the program of a define set, or hands over a new one. -/
def obtain (b : Backend σ) (c : CompiledGraph) (g : Graph) (d : DefineSet) (fills : StageFills)
    (t : Trial σ) : Installed × Trial σ :=
  match t.cache.find? c.pass d.signature with
  | some record => (record.program, t)
  | none =>
    let source := c.program g d fills
    let (handle, backend) := b.create source t.backend
    let program : Installed := ⟨handle, c.pass, d.signature⟩
    (program,
      { t with
        backend
        cache := t.cache.add { program, source }
        stats := { t.stats with compiles := t.stats.compiles + 1 } })

/-- Reports the failure of a program, once. -/
def report (t : Trial σ) (program : Installed) (message : String) : Trial σ :=
  match t.cache.find? program.pass program.signature with
  | none => t
  | some record =>
    if record.failureReported then t
    else { t with cache := t.cache.markReported program, reports := t.reports ++ [message] }

/-- Tries the program of a define set, and if it failed the programs with ever more defines
switched off. -/
def attempt (b : Backend σ) (c : CompiledGraph) (g : Graph) :
    List (Nat × List String) → DefineSet → StageFills → Trial σ →
      (Installed × ProgramStatus) × Trial σ
  | steps, d, fills, t =>
    let (program, t) := t.obtain b c g d fills
    let (status, backend) := b.poll program.handle t.backend
    let t := { t with backend }
    match status with
    | .failed message =>
      let t := t.report program message
      match steps with
      | [] => ((program, status), t)
      | (_, names) :: steps =>
        let d := d.switchOff names
        attempt b c g steps d (c.spliceAll g d)
          { t with stats := { t.stats with fallbacksApplied := t.stats.fallbacksApplied + 1 } }
    | _ => ((program, status), t)

end Trial

end ShaderGraph
