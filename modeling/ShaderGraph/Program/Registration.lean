import ShaderGraph.Program.Backend
import ShaderGraph.Program.Variant
/-!
Programs of things that are drawn without a target, such as effects over the whole screen.
-/

namespace ShaderGraph

/-- The program of something that is drawn without a target. It is handed over again whenever the
pass or the defines change. -/
structure Registration where
  pass : PassId := .first
  source : Option ProgramSource := none
  handle : Option ProgramHandle := none
  count : Nat := 0
deriving DecidableEq, Repr

namespace Registration

/-- Whether the program is that of a pass and a signature. -/
def isCurrent (r : Registration) (pass : PassId) (signature : String) : Bool :=
  r.handle.isSome && r.pass == pass && r.source.any fun s => s.defines == signature

/-- Brings the program up to date; tells whether a new one was handed over. -/
def sync {σ : Type} (r : Registration) (m : Material) (d : DefineSet) (b : Backend σ) (s : σ) :
    Except MaterialError Bool × Registration × σ :=
  match m.compiled with
  | none => (.error .notBuilt, r, s)
  | some c =>
    if r.isCurrent c.pass d.signature then (.ok false, r, s)
    else match m.programSource d with
      | .error e => (.error e, r, s)
      | .ok source =>
        let s := r.handle.elim s fun old => b.release old s
        let (handle, s) := b.create source s
        (.ok true, ⟨c.pass, some source, some handle, r.count + 1⟩, s)

end Registration

end ShaderGraph
