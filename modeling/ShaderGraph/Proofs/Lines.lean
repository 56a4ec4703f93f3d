import ShaderGraph.Proofs.Nesting
import ShaderGraph.Proofs.Sockets

/-!
# The lines that a build writes

The code of a stage is the result of operations on an empty buffer (`CodeBuffer.applyAll`). What a
block writes is told by such operations: they can be counted, while the texts that they push run
together in the buffer.

* `Kind.build_wrote`: every kind writes operations that fill no varying and are one line each where
  nothing that it reads holds a line break, apart from the fog in the vertex stage.
* `Kind.build_fog`: there it writes one line, which fills the distance, unless another fog has.
-/

namespace ShaderGraph

variable {s : Site Kind} {name : String} {clean : Prop}

theorem Emit.run_input {κ : Type} {s : Site κ} {slot : Slot}
    (h : s.inputs.find? (fun slot => slot.name == name) = some slot) :
    (Emit.input name : Emit κ Slot).run.run s = (.ok slot, s) := by
  unfold Emit.input
  rw [run_get_bind]
  simp only [h]
  rfl

namespace FogBlock

/-- What a fog takes for the distance: where a vertex is, seen from the camera. -/
def distanceValue (view position : String) : String := "(" ++ view ++ " * " ++ position ++ ").xyz"

/-- The part for the vertex stage declares the distance and fills it, unless another fog has. -/
theorem after_buildVertex {s : Site FogBlock} {position view : Slot}
    (hp : s.inputs.find? (fun slot => slot.name == "worldPosition") = some position)
    (hv : s.inputs.find? (fun slot => slot.name == "view") = some view)
    (vertex : s.draft.stage = .vertex) :
    Emit.after buildVertex s =
      if s.ledger.hasVarying distanceVarying then s
      else { s with
        ledger := s.ledger.addVarying { name := distanceVarying, type := .vector3 }
        draft := s.draft.push (assignment (s.draft.language.varyingRef .vertex distanceVarying)
          (distanceValue view.symbol position.symbol)) } := by
  have line : s.draft.language.varyingRef s.draft.stage distanceVarying ++ " = (" ++ view.symbol ++
      " * " ++ position.symbol ++ ").xyz;\n" =
      assignment (s.draft.language.varyingRef .vertex distanceVarying)
        (distanceValue view.symbol position.symbol) := by
    rw [vertex, assignment, distanceValue]
    simp only [String.append_assoc]
    rfl
  unfold buildVertex
  rw [Emit.after_bind_of_run (Emit.run_input hp), Emit.after_bind_of_run (Emit.run_input hv),
    Emit.after_get_bind, ← line]
  cases h : s.ledger.hasVarying distanceVarying <;> rfl

theorem after_build (s : Site FogBlock) :
    Emit.after FogBlock.build s = Emit.after (match s.draft.stage with
      | .vertex => buildVertex
      | .fragment => do
        Emit.enter .defines
        Emit.enter .bindable
        Emit.enter .fallbacks
        Emit.setKind { built := true }
        buildFragment) s := rfl

end FogBlock

/-- Every kind writes neat code, apart from the fog in the vertex stage. -/
theorem Kind.build_wrote (legible : s.kind.isInput = false → clean → s.Legible)
    (stage : ∀ f, s.kind = .fog f → s.draft.stage = .fragment) :
    (∃ ops, s.draft.code.applyAll ops = .ok (Emit.after Kind.build s).draft.code ∧
        ∀ op ∈ ops, op.Neat clean) ∧
      (Emit.after Kind.build s).ledger.record = s.ledger.record := by
  by_cases hfog : ∃ f, s.kind = .fog f
  · obtain ⟨f, hk⟩ := hfog
    have part := (FogBlock.enterFragment_code
      (m := { outputs := ["output"], adds := fun _ => True, clean }) rfl List.mem_cons_self
      (fun _ _ => trivial) trivial fun _ _ h => h).grows (s.withKind f)
      ⟨trivial, legible (by rw [hk]; rfl)⟩
    obtain ⟨ops, replay, neat⟩ := part.grows.code
    have opened : Emit.after Kind.build s =
        (Emit.after FogBlock.build (s.withKind f)).withKind
          (.fog (Emit.after FogBlock.build (s.withKind f)).kind) := by
      rw [Kind.after_build, hk]
      rfl
    rw [opened, FogBlock.after_build, show (s.withKind f).draft.stage = .fragment from stage f hk]
    exact ⟨⟨ops, replay, neat trivial⟩, part.grows.record trivial⟩
  · have neat := not_exists.mp hfog
    have wrote := (ran_build clean legible).grows
    refine ⟨?_, wrote.record neat⟩
    cases input : s.kind.isInput with
    | true => exact ⟨[], congrArg Except.ok (wrote.silent input).symm, nofun⟩
    | false =>
      obtain ⟨ops, replay, written⟩ := wrote.code
      refine ⟨ops, replay, fun op hop => ?_⟩
      obtain ⟨spares, whole⟩ := written neat op hop
      exact ⟨spares, fun hc => whole ⟨hc, neat, input⟩⟩

theorem Ledger.varyings_addVarying {l : Ledger} {decl : VaryingDecl}
    (h : l.hasVarying decl.name = false) : (l.addVarying decl).varyings = l.varyings ++ [decl] := by
  unfold hasVarying at h
  unfold addVarying declare
  rw [h]
  rfl

/-- The fog in the vertex stage declares the distance and fills it, unless another fog has. -/
theorem Kind.build_fog {f : FogBlock} {position view : Slot} (fog : s.kind = .fog f)
    (vertex : s.draft.stage = .vertex)
    (hp : s.inputs.find? (fun slot => slot.name == "worldPosition") = some position)
    (hv : s.inputs.find? (fun slot => slot.name == "view") = some view) :
    (s.ledger.hasVarying FogBlock.distanceVarying = true ∧
        (Emit.after Kind.build s).draft = s.draft ∧
        (Emit.after Kind.build s).ledger = s.ledger) ∨
      (s.ledger.hasVarying FogBlock.distanceVarying = false ∧
        (Emit.after Kind.build s).draft =
          s.draft.push (assignment (s.draft.language.varyingRef .vertex FogBlock.distanceVarying)
            (FogBlock.distanceValue view.symbol position.symbol)) ∧
        (Emit.after Kind.build s).ledger =
          s.ledger.addVarying { name := FogBlock.distanceVarying, type := .vector3 }) := by
  have part : Emit.after FogBlock.build (s.withKind f) =
      Emit.after FogBlock.buildVertex (s.withKind f) := by
    rw [FogBlock.after_build, show (s.withKind f).draft.stage = .vertex from vertex]
  have opened : Emit.after Kind.build s =
      (Emit.after FogBlock.build (s.withKind f)).withKind
        (.fog (Emit.after FogBlock.build (s.withKind f)).kind) := by
    rw [Kind.after_build, fog]
    rfl
  rw [opened, part, FogBlock.after_buildVertex hp hv vertex]
  cases declared : s.ledger.hasVarying FogBlock.distanceVarying with
  | true =>
    rw [if_pos
      (show (s.withKind f).ledger.hasVarying FogBlock.distanceVarying = true from declared)]
    exact .inl ⟨rfl, rfl, rfl⟩
  | false =>
    rw [if_neg (show ¬(s.withKind f).ledger.hasVarying FogBlock.distanceVarying = true from
      Bool.eq_false_iff.mp declared)]
    exact .inr ⟨rfl, rfl, rfl⟩

end ShaderGraph
