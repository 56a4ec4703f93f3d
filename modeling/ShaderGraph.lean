import ShaderGraph.Json.Basic
import ShaderGraph.Json.Source
import ShaderGraph.Stage
import ShaderGraph.Value.Basic
import ShaderGraph.Pass.Ledger
import ShaderGraph.Block.Registry
import ShaderGraph.Graph.Connect
import ShaderGraph.Graph.Typing
import ShaderGraph.Pass.Preparation
import ShaderGraph.Pass.Emission
import ShaderGraph.Program.Registration
import ShaderGraph.Document.Save
import ShaderGraph.Session.Basic
import ShaderGraph.Session.Inspect
import ShaderGraph.Main
import ShaderGraph.Proofs.Caching
import ShaderGraph.Proofs.Typing
import ShaderGraph.Proofs.RoundTrip
import ShaderGraph.Proofs.Completing
import ShaderGraph.Proofs.Runs
import ShaderGraph.Proofs.Swapping
import ShaderGraph.Proofs.Specializing
import ShaderGraph.Proofs.Sharing
import ShaderGraph.Proofs.Bounds
import ShaderGraph.Proofs.Compiling
import ShaderGraph.Proofs.Leftovers
import ShaderGraph.Proofs.Wishes
import ShaderGraph.Proofs.Mirrors
import ShaderGraph.Proofs.Lockstep
import ShaderGraph.Proofs.Retracing
import ShaderGraph.Proofs.Twins
import ShaderGraph.Proofs.Rebuilding
import ShaderGraph.Proofs.Reloading
import ShaderGraph.Proofs.Namespaces
import ShaderGraph.Proofs.Attaching
import ShaderGraph.Proofs.Coverage
import ShaderGraph.Proofs.Bookkeeping
import ShaderGraph.Proofs.Logs
import ShaderGraph.Proofs.Results
import ShaderGraph.Proofs.Varyings
import ShaderGraph.Proofs.Verdicts
import ShaderGraph.Proofs.Fallbacks
import ShaderGraph.Proofs.Shaking
import ShaderGraph.Proofs.Uniforms
import ShaderGraph.Proofs.Walks
import ShaderGraph.Proofs.Resolving
import ShaderGraph.Proofs.Rendering
import ShaderGraph.Proofs.Preprocessing
import ShaderGraph.Proofs.Pruning
import ShaderGraph.Proofs.Dirtying
import ShaderGraph.Proofs.Animating
import ShaderGraph.Proofs.Identifiers
import ShaderGraph.Proofs.Naming
import ShaderGraph.Proofs.Chunking
import ShaderGraph.Proofs.Textures
import ShaderGraph.Proofs.Deduplicating
