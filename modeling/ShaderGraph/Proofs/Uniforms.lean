import ShaderGraph.Proofs.Namespaces
import ShaderGraph.Proofs.Rebuilding
import ShaderGraph.Proofs.Sharing
import ShaderGraph.Proofs.Splicing
import ShaderGraph.Proofs.Varyings

/-!
# Values for uniforms

A program declares uniforms in two places: the stages do when they are built, and some blocks add
more by the defines of the target. Values are sent by the blocks on the lists of the pass. That the
two agree is carried through an emission: whatever declares a uniform is on a list for its value
(`Graph.Supplies`), and what declares by the defines is on the list that sets them and on one for
its values (`Graph.Enrols`). A result that comes of a build without errors is `CompiledGraph.Backed`
by its graph, and stays so while only the values of inputs change (`Graph.SameKinds`). The defines
count what the mesh has (`Kind.counts`), so that a target that can be drawn gets a value for every
uniform of its program (`Studio.bind_reaches_every_uniform`).
-/

namespace ShaderGraph

variable (on : Role → Prop) (k : Kind) (mesh : Mesh)

open Number List Option Kind Material Emission DefineSet Nat Roster Emit

/-! ## 1. Who sends what -/

/-- The list of an input block that sends its value to a uniform, and the uniform. -/
def InputBlock.supply (b : InputBlock) : Option (Role × String) :=
  match b.source with
  | .uniform | .system _ => if b.uniformName = "" then none else some (.input, b.uniformName)
  | _ => none

/-- The same of a fog. -/
def FogBlock.supply (f : FogBlock) : Option (Role × String) :=
  if f.built then some (.bindable, "fogParameters") else none

namespace Kind

/-- The list of a block that sends a value to a uniform whatever is drawn, and the uniform. -/
def supply : Kind → Option (Role × String)
  | .input b => b.supply
  | .fog f => f.supply
  | _ => none

/-- A block that moves vertices was built to its end, and it is `on` the lists for its defines and
for its values. -/
def Enrolled (on : Role → Prop) : Kind → Prop
  | .morphTargets m => m.names.isSome = true ∧ on .defines ∧ on .bindable
  | .bones b => b.built = true ∧ on .defines ∧ on .forcedBindable
  | _ => True

variable {k : Kind} {role : Role} {name : String}

theorem Enrolled.mono {on on' : Role → Prop} (h : k.Enrolled on) (le : ∀ role, on role → on' role) :
    k.Enrolled on' := by
  cases k with
  | morphTargets m => exact ⟨h.1, le _ h.2.1, le _ h.2.2⟩
  | bones b => exact ⟨h.1, le _ h.2.1, le _ h.2.2⟩
  | _ => trivial

theorem sends_of_supply (h : k.supply = some (role, name)) (mesh : Mesh) (scene : Scene) :
    (role = .input ∨ role = .bindable) ∧ ∃ v, (name, v) ∈ k.bind mesh scene := by
  cases k with
  | input b =>
    change b.supply = _ at h
    change _ ∧ ∃ v, (name, v) ∈ b.bind mesh scene
    unfold InputBlock.supply at h
    unfold InputBlock.bind
    by_cases unnamed : b.uniformName = ""
    · simp only [unnamed, if_true] at h
      split at h <;> cases h
    · have named : ¬b.uniformName.isEmpty = true := by simpa using unnamed
      rw [if_neg unnamed] at h
      rw [if_neg named]
      cases source : b.source with
      | uniform | system =>
        rw [source] at h
        cases h
        exact ⟨.inl rfl, _, mem_singleton_self _⟩
      | _ =>
        rw [source] at h
        cases h
  | fog f =>
    change f.supply = _ at h
    change _ ∧ ∃ v, (name, v) ∈ f.bind scene
    unfold FogBlock.supply at h
    split at h
    · rename_i built
      cases h
      simp [FogBlock.bind, built]
    · cases h
  | _ => cases h

/-- Matrices are sent for the bones only, one for each. -/
theorem eq_of_matrices {mesh : Mesh} {scene : Scene} {count : Nat}
    (h : (name, Bound.matrices count) ∈ k.bind mesh scene) : count = mesh.bones.length := by
  have value : ∀ v : Value, Bound.matrices count ≠ v.bound := by
    intro v
    cases v <;> exact fun h => nomatch h
  cases k with
  | input b =>
    change _ ∈ b.bind mesh scene at h
    unfold InputBlock.bind at h
    split at h
    · cases h
    · split at h
      · exact absurd (Prod.mk.inj (mem_singleton.mp h)).2 (value _)
      · exact absurd (Prod.mk.inj (mem_singleton.mp h)).2 (value _)
      · cases h
  | texture t =>
    change _ ∈ t.bind at h
    simp [TextureBlock.bind] at h
  | morphTargets m =>
    change _ ∈ m.bind mesh at h
    unfold MorphBlock.bind at h
    split at h
    · obtain ⟨x, -, sent⟩ := mem_map.mp h
      cases sent
    · cases h
  | bones b =>
    change _ ∈ b.bind mesh at h
    unfold BonesBlock.bind at h
    split at h
    · cases mem_singleton.mp h
      rfl
    · cases h
  | fog f =>
    change _ ∈ f.bind scene at h
    unfold FogBlock.bind at h
    split at h
    · cases mem_singleton.mp h
    · cases h
  | _ => cases h

end Kind

/-! ## 2. Builds -/

namespace Site

variable {κ : Type} {supply : κ → Option (Role × String)} {s t u : Site κ}

/-- The place of a block after a build. A uniform that is new gets its value from the block, which
is on the list for that, and a uniform that the block has sent its value to keeps it. -/
structure Backed (supply : κ → Option (Role × String)) (s t : Site κ) : Prop extends
    s.Enters t where
  uniforms : ∀ u ∈ t.draft.uniforms, u ∈ s.draft.uniforms ∨
    ∃ role type, supply t.kind = some (role, u.name) ∧ (role, t.block) ∈ t.ledger.roster.entries ∧
      u.type = .value type
  again : ∀ p, supply s.kind = some p → supply t.kind = some p

namespace Backed

theorem of_enters (enters : s.Enters t) (uniforms : ∀ u ∈ t.draft.uniforms, u ∈ s.draft.uniforms)
    (again : ∀ p, supply s.kind = some p → supply t.kind = some p) : Backed supply s t :=
  ⟨enters, fun u hu => .inl (uniforms u hu), again⟩

theorem trans (hst : Backed supply s t) (htu : Backed supply t u) : Backed supply s u where
  toEnters := hst.toEnters.trans htu.toEnters
  uniforms v hv := by
    rcases htu.uniforms v hv with old | new
    · rcases hst.uniforms v old with old | ⟨role, type, backed, entered, hv⟩
      · exact .inl old
      · refine .inr ⟨role, type, htu.again _ backed, ?_, hv⟩
        rw [htu.block]
        exact htu.kept entered
    · exact .inr new
  again p hp := htu.again p (hst.again p hp)

end Backed

end Site

theorem Roster.mem_entries_enter (r : Roster) (role : Role) (id : BlockId) :
    (role, id) ∈ (r.enter role id).entries := by
  unfold enter
  split
  · rename_i entered
    exact contains_iff_mem.mp entered
  · exact mem_append_right _ mem_cons_self

namespace InputBlock

open Site (Backed)

theorem mem_enlist_input (b : InputBlock) (id : BlockId) (l : Ledger) :
    (Role.input, id) ∈ (b.enlist id l).roster.entries := by
  have entered := l.roster.mem_entries_enter .input id
  unfold enlist
  split
  · exact subset_enter _ _ _ (subset_enter _ _ _ entered)
  · exact entered

/-- A block that declares a uniform sends its value there. -/
theorem backed_emitUniform (wish : String) {s : Site InputBlock}
    (h : ∀ name, name ≠ "" → ({ s.kind with uniformName := name } : InputBlock).supply =
      some (.input, name)) : Backed supply s (Emit.after (emitUniform wish) s) := by
  have code : Emit.Code (.wide true fun k k' => k' = k) Any true [] [] (emitUniform wish) :=
    emitUniform_code wish .rfl rfl (fun _ => trivial) fun _ _ _ => trivial
  refine ⟨(code.grows s ⟨trivial, False.elim⟩).grows.enters, ?_, ?_⟩
  · rw [Emit.after, run_emitUniform]
    intro u hu
    by_cases unnamed : s.kind.uniformName.isEmpty = true
    · simp only [unnamed, if_true] at hu ⊢
      refine (mem_declare hu).imp_right ?_
      rintro rfl
      exact ⟨.input, _, h _ (Ledger.freshVariable_ne_empty _ _), mem_enlist_input _ _ _, rfl⟩
    · simp only [unnamed, if_false, Bool.false_eq_true] at hu ⊢
      refine (mem_declare hu).imp_right ?_
      rintro rfl
      exact ⟨.input, _, h _ fun empty => unnamed (by simp [empty]), mem_enlist_input _ _ _, rfl⟩
  · intro p hp
    have named : s.kind.uniformName ≠ "" := by
      intro empty
      unfold supply at hp
      rw [empty, if_pos rfl] at hp
      split at hp <;> cases hp
    have same : ¬s.kind.uniformName.isEmpty = true := by simpa using named
    rw [Emit.after, run_emitUniform]
    simp only [same, if_false, Bool.false_eq_true]
    exact hp

theorem backed_build {s : Site InputBlock} {slot : Slot}
    (found : s.outputs.find? (fun slot => slot.name == "output") = some slot) :
    Backed supply s (Emit.after build s) := by
  let m : Manner InputBlock :=
    { alike := fun k k' => k' = k, stays := (· = s.kind), source := true, upright := False.elim }
  have silent : ∀ {e : Emit InputBlock Unit}, Emit.Code m Any true [] [] e →
      Backed supply s (e.after s) := by
    intro e code
    obtain ⟨grows, kind, -, -⟩ := code.grows s ⟨rfl, False.elim⟩
    refine .of_enters grows.enters (fun u hu => (grows.uniforms u hu).resolve_right id)
      fun p hp => ?_
    rw [Emit.after, show ((e.run.run s).2).kind = s.kind from kind]
    exact hp
  rw [after_build found]
  rcases source : s.kind.source with name | _ | _ | v
  · exact silent (emitAttribute_code .rfl rfl)
  · refine backed_emitUniform _ fun name named => ?_
    simp [supply, source, named]
  · exact silent (emitConstant_code .rfl rfl _)
  · have declared : Backed supply s (Emit.after (emitUniform v.uniformName) s) := by
      refine backed_emitUniform _ fun name named => ?_
      simp [supply, source, named]
    have hinted : ∀ t, Backed supply t (Emit.after (Emit.modifyLedger (hint v)) t) := fun t =>
      .of_enters (.of_eq rfl (by cases v <;> rfl)) (fun _ h => h) fun _ h => h
    rw [after_bind]
    split
    · exact declared.trans (hinted _)
    · exact declared

end InputBlock

namespace FogBlock

open Site (Backed)

/-- The fog declares its parameters in the fragment stage, and sends them from then on. -/
theorem backed_build {s : Site FogBlock} {position view : Slot}
    (hp : s.inputs.find? (fun slot => slot.name == "worldPosition") = some position)
    (hv : s.inputs.find? (fun slot => slot.name == "view") = some view) :
    Backed supply s (Emit.after build s) := by
  have enters := ((build_code (m := .wide false fun _ _ => True) rfl mem_cons_self
    (fun _ _ => trivial) trivial (fun _ _ _ => trivial) id).grows s ⟨trivial, nofun⟩).grows.enters
  change s.Enters (Emit.after build s) at enters
  cases stage : s.draft.stage with
  | vertex =>
    have part : Emit.after build s = Emit.after buildVertex s := by rw [after_build, stage]
    rw [part] at enters ⊢
    refine .of_enters enters ?_ ?_ <;> rw [after_buildVertex hp hv stage] <;> split <;>
      exact fun _ h => h
  | fragment =>
    let entered : Site FogBlock := { s with
      kind := { built := true }
      ledger :=
        ((s.ledger.enter .defines s.block).enter .bindable s.block).enter .fallbacks s.block }
    have part : Emit.after build s = Emit.after buildFragment entered := by
      rw [after_build, stage]
      rw [after_bind_of_run (run_enter _ _), after_bind_of_run (run_enter _ _),
        after_bind_of_run (run_enter _ _), after_bind_of_run (run_setKind _ _)]
    let m : Manner FogBlock :=
      { stays := (· = ⟨true⟩), outputs := ["output"], adds := (· ∈ uniforms) }
    obtain ⟨onward, kind, -, -⟩ :=
      (buildFragment_code (m := m) rfl mem_cons_self fun _ h => h).grows entered ⟨rfl, nofun⟩
    have built : supply (Emit.after buildFragment entered).kind =
        some (.bindable, "fogParameters") := by
      rw [Emit.after, show ((buildFragment.run.run entered).2).kind = _ from kind]
      rfl
    rw [part] at enters ⊢
    refine ⟨enters, fun u hu => (onward.uniforms u hu).imp_right fun new => ?_, fun p hp => ?_⟩
    · obtain rfl := mem_singleton.mp new
      refine ⟨.bindable, .vector4, built, ?_, rfl⟩
      rw [show (Emit.after buildFragment entered).block = s.block from onward.enters.block]
      exact onward.enters.kept (subset_enter _ _ _ (mem_entries_enter _ _ _))
    · rw [built]
      unfold supply at hp
      split at hp
      · exact hp
      · cases hp

end FogBlock

theorem Emission.Placed.backed {stage : Stage} {id : BlockId} {e e' : Emission} {b : Block}
    {s t : Site Kind} (h : Placed stage id e e' b s t) : s.Backed Kind.supply t := by
  have enters : s.Enters t := h.build ▸ build_enters s
  rw [h.build, after_build] at enters ⊢
  by_cases isInput : ∃ i, s.kind = .input i
  · obtain ⟨i, hk⟩ := isInput
    have own : "output" ∈ b.kind.outputs.map SocketSpec.name := by
      rw [← h.kind, hk]
      exact mem_cons_self
    obtain ⟨slot, found⟩ := h.exists_output own
    have part := InputBlock.backed_build (s := s.withKind i) found
    refine ⟨enters, ?_, ?_⟩
    · rw [hk]
      exact part.uniforms
    · rw [hk]
      exact part.again
  by_cases isFog : ∃ f, s.kind = .fog f
  · obtain ⟨f, hk⟩ := isFog
    have kind := h.kind.symm.trans hk
    obtain ⟨-, position, -, -, hp, -⟩ := h.input (i := 0) (by rw [kind]; rfl)
    obtain ⟨-, view, -, -, hv, -⟩ := h.input (i := 1) (by rw [kind]; rfl)
    have part := FogBlock.backed_build (s := s.withKind f) hp hv
    refine ⟨enters, ?_, ?_⟩
    · rw [hk]
      exact part.uniforms
    · rw [hk]
      exact part.again
  · have none : s.kind.supply = none := by
      cases hk : s.kind with
      | input i => exact absurd ⟨i, hk⟩ isInput
      | fog f => exact absurd ⟨f, hk⟩ isFog
      | _ => rfl
    refine .of_enters enters (fun u hu => ((grows_build s).uniforms u hu).resolve_right ?_) ?_
    · unfold manner
      cases hk : s.kind with
      | input i => exact absurd ⟨i, hk⟩ isInput
      | fog f => exact absurd ⟨f, hk⟩ isFog
      | _ => exact nofun
    intro p hp
    rw [none] at hp
    cases hp

/-! ## 3. What moves vertices -/

namespace Emit

variable {κ α β : Type} {P : Site κ → Prop}

/-- A part of a build that leaves a place of which `P` holds, unless it fails. -/
def Ends (P : Site κ → Prop) (e : Emit κ α) : Prop :=
  ∀ s x, (e.run.run s).1 = .ok x → P (e.after s)

theorem Ends.bind {e : Emit κ α} {f : α → Emit κ β} (hf : ∀ x, Ends P (f x)) :
    Ends P (e >>= f) := by
  intro s y h
  rw [run_bind] at h
  rw [after_bind]
  cases result : (e.run.run s).1 with
  | error fault =>
    rw [result] at h
    cases h
  | ok x =>
    rw [result] at h
    exact hf x _ y h

theorem Ends.setKind {kind : κ} (h : ∀ s : Site κ, P { s with kind }) :
    Ends P (Emit.setKind kind : Emit κ Unit) := fun s _ _ => h s

end Emit

theorem MorphBlock.write_ends : Emit.Ends (fun t => t.kind.names.isSome = true) write := by
  iterate 12 refine .bind fun _ => ?_
  exact .setKind fun _ => rfl

theorem BonesBlock.write_ends : Emit.Ends (fun t => t.kind.built = true) write := by
  iterate 12 refine .bind fun _ => ?_
  exact .setKind fun _ => rfl

/-- A block that enters itself first is on the lists afterwards, and the rest of its build ends as
it does by itself. -/
theorem Emit.entered_first {κ : Type} {P : Site κ → Prop} {e : Emit κ Unit} {m : Manner κ}
    (admits : ∀ s, m.Admits s) (code : Emit.Code m Any true [] [] e) (ends : Emit.Ends P e)
    (first second third fourth : Role)
    {s : Site κ} {f : Emit κ Unit}
    (order : f = (do
      Emit.enter first
      Emit.enter second
      Emit.enter third
      Emit.enter fourth
      e))
    (h : (f.run.run s).1 = .ok ()) :
    P (f.after s) ∧ (first, (f.after s).block) ∈ (f.after s).ledger.roster.entries ∧
      (second, (f.after s).block) ∈ (f.after s).ledger.roster.entries := by
  have listed : ∀ (role : Role) {e : Emit κ Unit} (s : Site κ), Emit.Code m Any true [] [] e →
      let t := (Emit.enter role >>= fun _ => e).after s
      (role, t.block) ∈ t.ledger.roster.entries := by
    intro role e s code
    rw [after_bind_of_run (run_enter role s)]
    have onward :=
      (code.grows { s with ledger := s.ledger.enter role s.block } (admits _)).grows.enters
    dsimp only
    rw [Emit.after, onward.block]
    exact onward.kept (mem_entries_enter _ _ _)
  have behind : Emit.Code m Any true [] [] (do Emit.enter third; Emit.enter fourth; e) :=
    .bind (.enter _) fun _ _ => .bind (.enter _) fun _ _ => code
  have ends : Emit.Ends P f := by
    rw [order]
    exact .bind fun _ => .bind fun _ => .bind fun _ => .bind fun _ => ends
  refine ⟨ends s () h, ?_, ?_⟩
  · rw [order]
    exact listed first s (.bind (.enter _) fun _ _ => behind)
  · rw [order, after_bind_of_run (run_enter first s)]
    exact listed second _ behind

theorem MorphBlock.enrolled_build {s : Site MorphBlock} (h : (build.run.run s).1 = .ok ()) :
    (Kind.morphTargets (build.after s).kind).Enrolled fun role =>
      (role, (build.after s).block) ∈ (build.after s).ledger.roster.entries :=
  entered_first (m := {}) (fun _ => ⟨trivial, nofun⟩) (write_code rfl trivial fun _ _ h => h)
    write_ends .defines .bindable .repeatable .dynamicUniform rfl h

theorem BonesBlock.enrolled_build {s : Site BonesBlock} (h : (build.run.run s).1 = .ok ()) :
    (Kind.bones (build.after s).kind).Enrolled fun role =>
      (role, (build.after s).block) ∈ (build.after s).ledger.roster.entries :=
  entered_first (m := { outputs := ["output"] }) (fun _ => ⟨trivial, nofun⟩)
    (write_code rfl trivial (fun _ _ h => h) mem_cons_self) write_ends .defines .forcedBindable
    .dynamicUniform .fallbacks rfl h

/-- A build that does not fail leaves a block that moves vertices on its lists. -/
theorem Kind.enrolled_build {s t : Site Kind} (h : Kind.build.run.run s = (.ok (), t)) :
    t.kind.Enrolled fun role => (role, t.block) ∈ t.ledger.roster.entries := by
  have place : t = Emit.after Kind.build s := (congrArg Prod.snd h).symm
  have ended : (s.kind.code.run.run s).1 = .ok () := congrArg Prod.fst h
  rw [place]
  cases hk : s.kind with
  | vertexOutput | lerp | vectorMerger | teleportIn =>
    rw [kind_build (by rw [hk]; rfl), hk]
    trivial
  | morphTargets m =>
    rw [hk] at ended
    rw [Kind.after_build, hk]
    exact MorphBlock.enrolled_build (s := s.withKind m) ended
  | bones b =>
    rw [hk] at ended
    rw [Kind.after_build, hk]
    exact BonesBlock.enrolled_build (s := s.withKind b) ended
  | _ =>
    rw [Kind.after_build, hk]
    trivial

/-! ## 4. Emissions -/

def Graph.kind? (g : Graph) (x : BlockId) : Option Kind := (g.get? x).map Block.kind

/-- Some block on a list sends a value to the uniform whatever is drawn. -/
def Graph.Supplies (g : Graph) (r : Roster) (u : UniformDecl) : Prop :=
  ∃ x k role type, g.kind? x = some k ∧ k.supply = some (role, u.name) ∧ (role, x) ∈ r.entries ∧
    u.type = .value type

/-- A block that declares uniforms by the defines is on its other lists. -/
def Graph.Enrols (g : Graph) (r : Roster) : Prop :=
  ∀ x k, g.kind? x = some k → (.dynamicUniform, x) ∈ r.entries →
    k.Enrolled fun role => (role, x) ∈ r.entries

namespace Emission

variable {e e' : Emission} {stage : Stage} {id : BlockId} {g : Graph} {l : Language}
  {T : BlockId → Prop}

/-- Every uniform gets its value from a block, and what moves vertices is on its lists unless a
problem was found. -/
structure Backed (e : Emission) : Prop where
  uniforms : ∀ s, ∀ u ∈ (e.draft s).uniforms, e.graph.Supplies e.ledger.roster u
  enrols : e.ledger.customErrors = [] → e.graph.Enrols e.ledger.roster

theorem Placed.kind?_eq {b : Block} {s t : Site Kind} (h : Placed stage id e e' b s t)
    (x : BlockId) : e'.graph.kind? x = if x = id then some t.kind else e.graph.kind? x := by
  rw [Graph.kind?, h.graph_eq, Graph.get?_modify]
  split
  · rename_i here
    rw [here, h.before]
    rfl
  · rfl

theorem Step.uniforms_of_ne (hs : Ongoing g l e) (h : Step l stage T e e')
    {s : Stage} (apart : s ≠ stage) : (e'.draft s).uniforms = (e.draft s).uniforms := by
  cases stage with
  | vertex =>
    cases s with
    | vertex => exact absurd rfl apart
    | fragment => exact congrArg StageDraft.uniforms (h.fragment_of_vertex hs)
  | fragment =>
    cases s with
    | vertex => exact (h.declarations_of_fragment hs).1
    | fragment => exact absurd rfl apart

theorem Backed.step (hs : Ongoing g l e) (hstep : Step l stage T e e')
    (h : e.Backed) : e'.Backed := by
  have clean : e'.ledger.customErrors = [] → e.ledger.customErrors = [] := fun none =>
    subset_nil.mp (none ▸ (hstep.gains hs).customErrors)
  rcases hstep.still_or_placed hs with still | ⟨id, b, s, t, placed⟩
  · refine ⟨fun s u hu => ?_, fun none => ?_⟩
    · obtain ⟨x, k, role, type, hk, rest⟩ := h.uniforms s u (still.uniforms s ▸ hu)
      exact ⟨x, k, role, type, (still.kinds x).trans hk, still.roster ▸ rest⟩
    · intro x k hk
      rw [still.roster]
      exact h.enrols (clean none) x k ((still.kinds x).symm.trans hk)
  · have backed := placed.backed
    have block : t.block = id := backed.block.trans placed.block
    have roster : e.ledger.roster.entries ⊆ e'.ledger.roster.entries := by
      rw [placed.roster_eq, ← placed.roster]
      exact backed.kept
    -- what sent a value before the call sends it afterwards
    have lasts : ∀ u, e.graph.Supplies e.ledger.roster u →
        e'.graph.Supplies e'.ledger.roster u := by
      rintro u ⟨x, k, role, type, hk, hu, entered, htype⟩
      by_cases here : x = id
      · have kind : k = s.kind := by
          rw [Graph.kind?, here, placed.before] at hk
          exact (Option.some.inj hk).symm.trans placed.kind.symm
        refine ⟨x, t.kind, role, type, ?_, backed.again _ (kind ▸ hu), roster entered, htype⟩
        rw [placed.kind?_eq, if_pos here]
      · refine ⟨x, k, role, type, ?_, hu, roster entered, htype⟩
        rw [placed.kind?_eq, if_neg here]
        exact hk
    refine ⟨fun s' u hu => ?_, fun none x k hk entered => ?_⟩
    · by_cases same : s' = stage
      · rw [same, placed.draft_eq] at hu
        rcases backed.uniforms u hu with old | ⟨role, type, hu, entered, htype⟩
        · obtain ⟨code, same⟩ := e.draftFor_eq b stage
          rw [placed.draft, same] at old
          exact lasts u (h.uniforms stage u old)
        · refine ⟨id, t.kind, role, type, ?_, hu, ?_, htype⟩
          · rw [placed.kind?_eq, if_pos rfl]
          · rw [placed.roster_eq, ← block]
            exact entered
      · rw [hstep.uniforms_of_ne hs same] at hu
        exact lasts u (h.uniforms s' u hu)
    · rw [placed.kind?_eq] at hk
      split at hk
      · rename_i here
        cases hk
        have enrolled := enrolled_build (placed.ended none)
        rw [block, ← placed.roster_eq] at enrolled
        exact here ▸ enrolled
      · rename_i there
        rw [placed.roster_eq] at entered
        have old : (Role.dynamicUniform, x) ∈ e.ledger.roster.entries := by
          rcases backed.roster _ entered with old | own
          · exact placed.roster ▸ old
          · exact absurd (own.trans placed.block) there
        exact (h.enrols (clean none) x k hk old).mono fun _ on => roster on

/-- In an emission every uniform gets its value from a block. Between the stages, the fragment stage
takes over the uniforms of the other. -/
theorem run_backed (hs : Ongoing g l e) (h : e.Backed)
    {vertexNodes fragmentNodes : List BlockId} (hrun : e.run vertexNodes fragmentNodes = .ok e') :
    e'.Backed := by
  refine run_lasts (fun hs hstep h => h.step hs hstep) (fun nodes _ h => ⟨?_, h.enrols⟩) hs
    hrun h
  rintro (_ | _) u hu
  · exact h.uniforms .vertex u hu
  · exact (mem_foldl_declare UniformDecl.name hu).elim (h.uniforms .fragment u)
      (h.uniforms .vertex u)

end Emission

/-! ## 5. Built graphs -/

/-- The kind without the value of an input, which may change from frame to frame. -/
def Kind.valueless : Kind → Kind
  | .input b => .input { b with value := none }
  | k => k

/-- The graphs have the same blocks with the same settings, apart from the values of inputs. -/
def Graph.SameKinds (g g' : Graph) : Prop :=
  ∀ x, (g'.kind? x).map Kind.valueless = (g.kind? x).map Kind.valueless

/-- What a result needs of the graph so that all its uniforms get values. -/
structure CompiledGraph.Backed (c : CompiledGraph) (g : Graph) : Prop where
  uniforms : ∀ s, ∀ u ∈ (c.part s).uniforms, g.Supplies c.roster u
  enrols : g.Enrols c.roster
  named : ∀ x k, g.kind? x = some k → (.defines, x) ∈ c.roster.entries → k.Named

theorem Material.backed_of_build {m m' : Material} {c : CompiledGraph} (hg : m.graph.Proper)
    (h : m.build = (.ok c, m')) (clean : c.errors = []) : c.Backed m'.graph := by
  obtain ⟨-, e, he, hc, graph⟩ := build_eq_ok h
  obtain ⟨-, -, parts, -, -, errors⟩ := finish_eq_ok hc
  have roster := roster_finish hc
  have unwritten : m.unwritten.Backed := by
    refine ⟨fun s u hu => ?_, fun _ x k _ entered => ?_⟩
    · cases s <;> cases hu
    · change _ ∈ m.prepare.state.ledger.roster.entries at entered
      rw [m.spares_prepare.2] at entered
      cases entered
  have backed : e.Backed :=
    Emission.run_backed (steady_unwritten hg) unwritten he
  have none : e.ledger.customErrors = [] := by
    rw [errors, Ledger.errors, List.append_eq_nil_iff] at clean
    exact clean.2
  refine ⟨fun s u hu => ?_, ?_, fun x k hk entered => ?_⟩
  · rw [graph, roster]
    exact backed.uniforms s u ((parts s).1 ▸ hu)
  · rw [graph, roster]
    exact backed.enrols none
  · obtain ⟨b, hb, rfl⟩ := Option.map_eq_some_iff.mp hk
    exact namedAt_of_build h (Roster.mem_blocks_iff.mpr entered) b hb

theorem Kind.supply_valueless : k.valueless.supply = k.supply := by
  cases k <;> rfl

theorem Kind.enrolled_valueless : k.valueless.Enrolled on = k.Enrolled on := by
  cases k <;> rfl

theorem Kind.named_valueless : k.valueless.Named = k.Named := by
  cases k <;> rfl

namespace Graph.SameKinds

variable {g g' g'' : Graph} {c : CompiledGraph} {x : BlockId} {k : Kind}

theorem refl (g : Graph) : g.SameKinds g := fun _ => rfl

theorem trans (h : g.SameKinds g') (h' : g'.SameKinds g'') : g.SameKinds g'' :=
  fun x => (h' x).trans (h x)

theorem symm (h : g.SameKinds g') : g'.SameKinds g := fun x => (h x).symm

theorem exists_kind? (h : g.SameKinds g') (hk : g.kind? x = some k) :
    ∃ k', g'.kind? x = some k' ∧ k'.valueless = k.valueless := by
  have same := h x
  rw [hk] at same
  exact map_eq_some_iff.mp same

theorem backed (h : g.SameKinds g') (hc : c.Backed g) : c.Backed g' where
  uniforms s u hu := by
    obtain ⟨x, k, role, type, hk, supply, rest⟩ := hc.uniforms s u hu
    obtain ⟨k', hk', same⟩ := h.exists_kind? hk
    refine ⟨x, k', role, type, hk', ?_, rest⟩
    rw [← k'.supply_valueless, same, k.supply_valueless]
    exact supply
  enrols x k' hk' entered := by
    obtain ⟨k, hk, same⟩ := h.symm.exists_kind? hk'
    rw [← k'.enrolled_valueless, ← same, k.enrolled_valueless]
    exact hc.enrols x k hk entered
  named x k' hk' entered := by
    obtain ⟨k, hk, same⟩ := h.symm.exists_kind? hk'
    rw [← k'.named_valueless, ← same, k.named_valueless]
    exact hc.named x k hk entered

end Graph.SameKinds

theorem Material.sameKinds_animate (g : Graph) (ids : List BlockId) (scene : Scene) :
    g.SameKinds (animate g ids scene) := by
  have animated : ∀ k : Kind, (k.animate scene).valueless = k.valueless := by
    intro k
    cases k with
    | input b =>
      change (Kind.input (b.animate scene)).valueless = _
      unfold InputBlock.animate
      split <;> rfl
    | _ => rfl
  induction ids generalizing g with
  | nil => exact .refl g
  | cons id rest ih =>
    refine Graph.SameKinds.trans (fun x => ?_) (ih _)
    rw [Graph.kind?, Graph.get?_modify]
    split
    · rw [Graph.kind?, Option.map_map, Option.map_map, Option.map_map]
      exact congrArg (Option.map · _) (funext fun b => animated b.kind)
    · rfl

/-! ## 6. Defines -/

/-- How many morph targets of the mesh a program takes. -/
def Mesh.morphCount (mesh : Mesh) : Nat :=
  mesh.morph.elim 0 fun m => min m.influences.length MorphBlock.maxInfluencers

/-- How many bones act on a vertex of the mesh. -/
def Mesh.boneCount (mesh : Mesh) : Nat :=
  if mesh.bones.isEmpty then 0 else min mesh.boneInfluencers BonesBlock.maxInfluencers

theorem Mesh.morphCount_le : mesh.morphCount ≤ MorphBlock.maxInfluencers := by
  unfold morphCount
  cases mesh.morph with
  | none => exact zero_le _
  | some m => exact min_le_right _ _

/-- A mesh whose morph targets have no influences has none. -/
theorem Mesh.morph_filter : let targets := mesh.morph.filter fun m => !m.influences.isEmpty
    targets.isSome = decide (0 < mesh.morphCount) ∧
      (targets.elim 0 fun m => min m.influences.length MorphBlock.maxInfluencers) =
        mesh.morphCount := by
  unfold morphCount
  cases mesh.morph with
  | none => exact ⟨rfl, rfl⟩
  | some m => cases h : m.influences <;> simp [Option.filter, h, MorphBlock.maxInfluencers]

namespace Kind

variable {k k' : Kind} {mesh : Mesh} {scene : Scene} {d : DefineSet} {p : String × DefineValue}

/-- The defines by which a block that moves vertices counts the uniforms that it declares. -/
def counts (mesh : Mesh) : Kind → List (String × DefineValue)
  | .morphTargets _ =>
    [("MORPHTARGETS", .flag (0 < mesh.morphCount)),
      ("NUM_MORPH_INFLUENCERS", .count mesh.morphCount)]
  | .bones _ =>
    [("NUM_BONE_INFLUENCERS", .count mesh.boneCount),
      ("BonesPerMesh", .count (max mesh.bones.length 1 : Nat))]
  | _ => []

theorem get?_of_counts (hp : p ∈ k.counts mesh) (scene : Scene) (d : DefineSet) :
    (k.prepareDefines mesh scene d).get? p.1 = some p.2 := by
  cases k with
  | morphTargets m =>
    obtain ⟨flag, count⟩ := mesh.morph_filter
    change (MorphBlock.prepareDefines mesh d).get? p.1 = _
    unfold MorphBlock.prepareDefines DefineSet.putFlag DefineSet.putCount
    simp only [flag, count]
    simp only [counts, mem_cons, not_mem_nil, or_false] at hp
    rcases hp with rfl | rfl <;> simp [get?_put]
  | bones b =>
    change (BonesBlock.prepareDefines mesh d).get? p.1 = _
    unfold BonesBlock.prepareDefines DefineSet.putCount
    simp only [counts, mem_cons, not_mem_nil, or_false] at hp
    rcases hp with rfl | rfl <;> simp [get?_put, Mesh.boneCount]
  | _ => cases hp

/-- No name of a count begins as those of the other defines do. -/
theorem head_of_counts (hp : p ∈ k.counts mesh) :
    p.1.toList.head? ≠ some 'C' ∧ p.1.toList.head? ≠ some 'F' := by
  cases k with
  | morphTargets m =>
    simp only [counts, mem_cons, not_mem_nil, or_false] at hp
    rcases hp with rfl | rfl <;> dsimp only <;> decide
  | bones b =>
    simp only [counts, mem_cons, not_mem_nil, or_false] at hp
    rcases hp with rfl | rfl <;> dsimp only <;> decide
  | _ => cases hp

/-- No other block sets the counts to anything else. -/
theorem get?_of_counts_of_named (hp : p ∈ k.counts mesh) (named : k'.Named)
    (hd : d.get? p.1 = some p.2) : (k'.prepareDefines mesh scene d).get? p.1 = some p.2 := by
  cases k' with
  | fragmentOutput f =>
    obtain ⟨⟨i, gamma⟩, ⟨j, linear⟩⟩ := named
    have other : ∀ lead number : String, lead.toList.head? = some 'C' → lead ++ number ≠ p.1 := by
      intro lead number hlead same
      have head := (head_of_counts hp).1
      rw [← same, String.toList_append, head?_append, hlead] at head
      exact head rfl
    change (f.prepareDefines d).get? p.1 = _
    unfold FragmentOutput.prepareDefines DefineSet.putFlag
    split
    · exact hd
    · rw [get?_put, get?_put, gamma, linear, if_neg (other _ _ rfl),
        if_neg (other _ _ rfl)]
      exact hd
  | morphTargets m =>
    cases k with
    | morphTargets _ => exact get?_of_counts (k := .morphTargets m) hp scene d
    | bones b =>
      change (MorphBlock.prepareDefines mesh d).get? p.1 = _
      unfold MorphBlock.prepareDefines DefineSet.putFlag DefineSet.putCount
      simp only [counts, mem_cons, not_mem_nil, or_false] at hp
      rcases hp with rfl | rfl <;> simp [get?_put, hd]
    | _ => cases hp
  | bones b =>
    cases k with
    | bones _ => exact get?_of_counts (k := .bones b) hp scene d
    | morphTargets m =>
      change (BonesBlock.prepareDefines mesh d).get? p.1 = _
      unfold BonesBlock.prepareDefines DefineSet.putCount
      simp only [counts, mem_cons, not_mem_nil, or_false] at hp
      rcases hp with rfl | rfl <;> simp [get?_put, hd]
    | _ => cases hp
  | fog f =>
    have other : "FOG" ≠ p.1 := by
      intro same
      exact (head_of_counts hp).2 (same ▸ rfl)
    change (FogBlock.prepareDefines mesh scene d).get? p.1 = _
    unfold FogBlock.prepareDefines DefineSet.putFlag
    rw [get?_put, if_neg other]
    exact hd
  | _ => exact hd

end Kind

/-- A define that one step sets and that no other step changes has that value in the end. -/
theorem DefineSet.get?_foldl {α : Type} {step : DefineSet → α → DefineSet} {name : String}
    {v : DefineValue} {l : List α} {x : α} (hx : x ∈ l) (sets : ∀ d, (step d x).get? name = some v)
    (keeps : ∀ y ∈ l, ∀ d, d.get? name = some v → (step d y).get? name = some v) (d : DefineSet) :
    (l.foldl step d).get? name = some v := by
  obtain ⟨before, after, rfl⟩ := append_of_mem hx
  rw [foldl_append, foldl_cons]
  refine List.foldlRecOn after step (motive := fun d => d.get? name = some v) (sets _) ?_
  intro d hd y hy
  exact keeps y (mem_append_right _ (mem_cons_of_mem _ hy)) d hd

namespace CompiledGraph

variable {c : CompiledGraph} {g : Graph} {role : Role} {x : BlockId} {k : Kind} {b : Block}

theorem mem_participants_iff :
    b ∈ c.participants g role ↔ ∃ x, (role, x) ∈ c.roster.entries ∧ g.get? x = some b := by
  simp [participants, List.mem_filterMap, Roster.mem_blocks_iff]

theorem exists_participant (hk : g.kind? x = some k) (entered : (role, x) ∈ c.roster.entries) :
    ∃ b ∈ c.participants g role, b.kind = k := by
  obtain ⟨b, hb, kind⟩ := map_eq_some_iff.mp hk
  exact ⟨b, mem_participants_iff.mpr ⟨x, entered, hb⟩, kind⟩

theorem exists_kind?_of_mem (hb : b ∈ c.participants g role) :
    ∃ x, g.kind? x = some b.kind ∧ (role, x) ∈ c.roster.entries := by
  obtain ⟨x, entered, hx⟩ := mem_participants_iff.mp hb
  exact ⟨x, by rw [Graph.kind?, hx]; rfl, entered⟩

/-- The counts of every block on the list for defines are those of the mesh. -/
theorem get?_prepareDefines_of_counts (hc : c.Backed g) (hk : g.kind? x = some k)
    (entered : (.defines, x) ∈ c.roster.entries) {mesh : Mesh} {p : String × DefineValue}
    (hp : p ∈ k.counts mesh) (scene : Scene) (d : DefineSet) :
    (c.prepareDefines g mesh scene d).get? p.1 = some p.2 := by
  obtain ⟨b, hb, rfl⟩ := exists_participant hk entered
  refine get?_foldl hb (get?_of_counts hp scene) (fun b' hb' d hd => ?_) _
  obtain ⟨y, hy, entered'⟩ := exists_kind?_of_mem hb'
  exact get?_of_counts_of_named hp (hc.named y b'.kind hy entered') hd

end CompiledGraph

/-! ## 7. Values -/

namespace CompiledGraph

variable {c : CompiledGraph} {g : Graph} {mesh : Mesh} {scene : Scene} {d : DefineSet}
  {u : UniformDecl}

/-- The values that the blocks of a graph send when nothing is held back. -/
def sent (c : CompiledGraph) (g : Graph) (mesh : Mesh) (scene : Scene) : List Binding :=
  [Role.input, .bindable, .forcedBindable].flatMap fun role =>
    (c.participants g role).flatMap fun b => b.kind.bind mesh scene

theorem mem_sent {name : String} {v : Bound} {x : BlockId} {k : Kind} {role : Role}
    (hrole : role = .input ∨ role = .bindable ∨ role = .forcedBindable) (hk : g.kind? x = some k)
    (entered : (role, x) ∈ c.roster.entries) (h : (name, v) ∈ k.bind mesh scene) :
    (name, v) ∈ c.sent g mesh scene := by
  obtain ⟨b, hb, rfl⟩ := exists_participant hk entered
  refine mem_flatMap.mpr ⟨role, ?_, mem_flatMap.mpr ⟨b, hb, h⟩⟩
  simpa using hrole

theorem eq_of_matrices_sent {name : String} {count : Nat}
    (h : (name, .matrices count) ∈ c.sent g mesh scene) : count = mesh.bones.length := by
  obtain ⟨role, -, h⟩ := mem_flatMap.mp h
  obtain ⟨b, -, h⟩ := mem_flatMap.mp h
  exact eq_of_matrices h

/-- A uniform of a program is one of a stage, or a block declares it by the defines. -/
theorem mem_uniforms_resources (h : u ∈ (c.resources g d).uniforms) :
    (∃ s, u ∈ (c.part s).uniforms) ∨
      ∃ x k, g.kind? x = some k ∧ (.dynamicUniform, x) ∈ c.roster.entries ∧
        u ∈ (k.dynamicDecls d).uniforms := by
  have attributes := Resources.foldl_of_keeps (p := Resources.uniforms)
    (f := Resources.addAttribute) fun _ _ => rfl
  unfold resources Resources.addDynamic at h
  rw [attributes, Resources.uniforms_foldl_addUniform, Resources.uniforms_merge] at h
  rcases mem_foldl_declare _ h with static | dynamic
  · have static := (mem_foldl_declare _ static).resolve_left not_mem_nil
    rcases mem_append.mp static with vertex | fragment
    · exact .inl ⟨.vertex, vertex⟩
    · exact .inl ⟨.fragment, fragment⟩
  · obtain ⟨decls, hdecls, hu⟩ := mem_flatMap.mp dynamic
    obtain ⟨b, hb, rfl⟩ := mem_map.mp hdecls
    obtain ⟨x, hx, entered⟩ := exists_kind?_of_mem hb
    exact .inr ⟨x, b.kind, hx, entered, hu⟩

end CompiledGraph

namespace MorphBlock

variable {mesh : Mesh} {d : DefineSet}

theorem influencers_eq (flag : d.get? "MORPHTARGETS" = some (.flag (0 < mesh.morphCount)))
    (count : d.get? "NUM_MORPH_INFLUENCERS" = some (.count mesh.morphCount)) :
    influencers d = mesh.morphCount := by
  have atMost := mesh.morphCount_le
  simp only [influencers, DefineSet.isDefined, DefineSet.count, flag, count, decide_eq_true_eq,
    Int.toNat_natCast]
  split <;> omega

theorem sends_influence (m : MorphBlock) (h : m.names.isSome = true) {i : Nat}
    (hi : i < mesh.morphCount) : ∃ v, (influence i, v) ∈ m.bind mesh := by
  obtain ⟨names, hn⟩ := isSome_iff_exists.mp h
  unfold Mesh.morphCount at hi
  unfold bind
  cases hm : mesh.morph with
  | none =>
    rw [hm] at hi
    cases hi
  | some targets =>
    rw [hm] at hi
    have inside : i < (targets.influences.take maxInfluencers).length := by
      rw [length_take]
      exact lt_of_lt_of_eq hi (min_comm _ _)
    have listed : ((targets.influences.take maxInfluencers)[i], i) ∈
        (targets.influences.take maxInfluencers).zipIdx :=
      mem_zipIdx_iff_getElem?.mpr (getElem?_eq_getElem inside)
    rw [hn]
    exact ⟨_, mem_map.mpr ⟨_, listed, rfl⟩⟩

end MorphBlock

namespace Kind

variable {k k' : Kind} {mesh : Mesh} {d : DefineSet} {u : UniformDecl} {on : Role → Prop}

/-- A block that was built sends values to what it declares by the counts of the mesh. -/
theorem sends_of_dynamic (enrolled : k.Enrolled on)
    (reads : on .defines → ∀ p ∈ k.counts mesh, d.get? p.1 = some p.2)
    (hu : u ∈ (k.dynamicDecls d).uniforms) (scene : Scene) :
    ∃ role, (role = .bindable ∨ role = .forcedBindable) ∧ on role ∧
      (∃ v, (u.name, v) ∈ k.bind mesh scene) ∧
      ∀ size, u.type = .matrixArray size → u.name = "mBones" ∧
        size = mesh.bones.length % twoTo 32 ∧
        (u.name, .matrices mesh.bones.length) ∈ k.bind mesh scene := by
  cases k with
  | morphTargets m =>
    obtain ⟨built, defines, bindable⟩ := enrolled
    have count := MorphBlock.influencers_eq (reads defines _ mem_cons_self)
      (reads defines _ (mem_cons_of_mem _ mem_cons_self))
    obtain ⟨i, hi, rfl⟩ := mem_map.mp hu
    rw [mem_range, count] at hi
    exact ⟨.bindable, .inl rfl, bindable, m.sends_influence built hi, nofun⟩
  | bones b =>
    obtain ⟨built, defines, forced⟩ := enrolled
    have influencers := reads defines _ mem_cons_self
    have size := reads defines _ (mem_cons_of_mem _ mem_cons_self)
    change u ∈ (BonesBlock.dynamicDecls d).uniforms at hu
    simp only [BonesBlock.dynamicDecls, DefineSet.count, influencers, size] at hu
    split at hu
    · rename_i some
      have some : mesh.bones ≠ [] := by
        intro none
        simp [Mesh.boneCount, none] at some
      have sends : ("mBones", .matrices mesh.bones.length) ∈ b.bind mesh := by
        simp [BonesBlock.bind, built, some]
      obtain rfl := mem_singleton.mp hu
      refine ⟨.forcedBindable, .inr rfl, forced, ⟨_, sends⟩, fun n hn => ⟨rfl, ?_, sends⟩⟩
      have := length_pos_iff.mpr some
      cases hn
      congr 1
      omega
    · cases hu
  | _ => cases hu

/-- A block that declares uniforms by the defines has no value that animation changes. -/
theorem eq_of_dynamic (hu : u ∈ (k.dynamicDecls d).uniforms) (same : k'.valueless = k.valueless) :
    k' = k := by
  cases k with
  | morphTargets m => cases k' <;> cases same; rfl
  | bones b => cases k' <;> cases same; rfl
  | _ => cases hu

end Kind

/-- With the defines of a mesh, every uniform of the program gets a value, and an array as many
matrices as it has places. -/
theorem CompiledGraph.Backed.reaches {c : CompiledGraph} {g g' : Graph} {mesh : Mesh}
    {scene : Scene} {d past : DefineSet} {u : UniformDecl} (hc : c.Backed g)
    (same : g.SameKinds g')
    (reads : ∀ name, d.get? name = (c.prepareDefines g mesh scene past).get? name)
    (hu : u ∈ (c.resources g d).uniforms) :
    (∃ v, (u.name, v) ∈ c.sent g' mesh scene) ∧
      ∀ size, u.type = .matrixArray size → u.name = "mBones" ∧
        size = mesh.bones.length % twoTo 32 ∧
        ∀ count, (u.name, .matrices count) ∈ c.sent g' mesh scene ↔ count = mesh.bones.length := by
  rcases mem_uniforms_resources hu with ⟨s, static⟩ | ⟨x, k, hk, entered, dynamic⟩
  · obtain ⟨x, k, role, type, hk, supply, entered, htype⟩ := (same.backed hc).uniforms s u static
    obtain ⟨visited, v, sends⟩ := sends_of_supply supply mesh scene
    refine ⟨⟨v, mem_sent (visited.imp_right .inl) hk entered sends⟩, fun size hsize => ?_⟩
    rw [htype] at hsize
    cases hsize
  · have counts : (.defines, x) ∈ c.roster.entries → ∀ p ∈ k.counts mesh, d.get? p.1 = some p.2 :=
      fun entered p hp =>
        (reads p.1).trans (get?_prepareDefines_of_counts hc hk entered hp scene past)
    obtain ⟨role, visited, entered, ⟨v, sends⟩, array⟩ :=
      sends_of_dynamic (hc.enrols x k hk entered) counts dynamic scene
    obtain ⟨k', hk', samek⟩ := same.exists_kind? hk
    rw [eq_of_dynamic dynamic samek] at hk'
    have visited := Or.inr (a := role = .input) visited
    refine ⟨⟨v, mem_sent visited hk' entered sends⟩, fun size hsize => ?_⟩
    obtain ⟨name, hsize, sends⟩ := array size hsize
    refine ⟨name, hsize, fun count => ⟨eq_of_matrices_sent, ?_⟩⟩
    rintro rfl
    exact mem_sent visited hk' entered sends

theorem Material.bind_of_thawed {m : Material} {t : DrawTarget} {c : CompiledGraph} {p : Installed}
    (compiled : m.compiled = some c) (active : t.active = some p)
    (thawed : m.options.frozen = false) (mesh : Mesh) (scene : Scene) :
    (m.bind t mesh scene).1 =
      .ok (c.sent (animate m.graph (c.roster.blocks .animated) scene) mesh scene) := by
  unfold bind
  simp [compiled, active, thawed, CompiledGraph.sent]

namespace Studio

open Relation

variable {σ : Type} {b : Backend σ} {drift : σ → σ → Prop} {sane : σ → Prop}
  {known : σ → ProgramHandle → Prop} {w w₀ w₁ : Studio σ} {c : CompiledGraph} {n : Nat}
  {mesh : Mesh} {scene : Scene}

/-- Where every program is ready at once, a target can be drawn if its check gets to the programs.
-/
theorem ready_iff_serves (hb : b.Answers drift sane known (· = .ready))
    (hw : w.Specialized sane known) (n : Nat) (mesh : Mesh) (scene : Scene) :
    (w.material.ready b (w.targets n) mesh scene w.backend).ready = true ↔
      ∃ c, w.material.Serves c := by
  constructor
  · intro ready
    by_contra idle
    obtain ⟨t, eq, -⟩ := ready_of_idle b (w.targets n) mesh scene w.backend fun c hc =>
      idle ⟨c, hc⟩
    rw [eq] at ready
    cases ready
  · rintro ⟨c, serves⟩
    have renewed := renewed_consult hb works_of_ready hw.held (hw.settled n)
      (hw.shares c serves.compiled n) mesh scene
    obtain ⟨record, found, active⟩ := renewed.shares (renewed.prompt fun _ h => h)
    have answer := hb.answers _ _ renewed.held.sane
      (renewed.held.known record (mem_of_find?_eq_some found))
    rw [ready_of_serves serves]
    simp only [Material.activeReady, active, answer]
    rfl

/-- Where every program is ready at once, a target that can be drawn gets a value for every uniform
of its program. An array of matrices is that of the bones, of which it gets all; its size is kept in
32 bits. Since the build the graph has changed in the values of its inputs only. -/
theorem bind_reaches_every_uniform (hb : b.Answers drift sane known (· = .ready))
    (start : w₀.Opened) (hs : sane w₀.backend) (run : ReflTransGen (Move b drift) w₀ w₁)
    {m : Material} (built : w₁.material.build = (.ok c, m))
    (later : ReflTransGen (Move b drift) w₁.build w) (last : w.material.compiled = some c)
    (same : m.graph.SameKinds w.material.graph) (thawed : w.material.options.frozen = false)
    (ready : (w.material.ready b (w.targets n) mesh scene w.backend).ready = true) :
    let r := w.material.ready b (w.targets n) mesh scene w.backend
    ∃ p sent, r.target.active = some p ∧ p.pass = c.pass ∧
      p.signature = r.target.defines.signature ∧
      (r.material.bind r.target mesh scene).1 = .ok sent ∧
      ∀ u ∈ (c.resources r.material.graph r.target.defines).uniforms,
        (∃ v, (u.name, v) ∈ sent) ∧
        ∀ size, u.type = .matrixArray size → u.name = "mBones" ∧
          size = mesh.bones.length % twoTo 32 ∧
          ∀ count, (u.name, .matrices count) ∈ sent ↔ count = mesh.bones.length := by
  intro r
  have hw₁ : w₁.Specialized sane known := (Specialized.of_opened start hs).run hb works_of_ready run
  have hw : w.Specialized sane known := hw₁.build.run hb works_of_ready later
  obtain ⟨c', serves⟩ := (ready_iff_serves hb hw n mesh scene).mp ready
  obtain rfl : c = c' := Option.some.inj (last.symm.trans serves.compiled)
  have clean : c.errors = [] := List.isEmpty_iff.mp serves.successful
  have backed : c.Backed w.material.graph :=
    same.backed (Material.backed_of_build hw₁.ordered.graph built clean)
  have renewed := Material.renewed_ready hb works_of_ready hw.held (hw.settled n)
    (hw.shares c serves.compiled n) serves mesh scene
  have reads := (prepared_ready hb hw serves n mesh scene).reads
  simp only [Studio.ready, if_true] at reads
  obtain ⟨cache, material⟩ := w.material.material_ready b (w.targets n) mesh scene w.backend
  obtain ⟨p, active, fits⟩ := renewed.settled.clean (renewed.prompt fun _ h => h)
  refine ⟨p, _, active, fits.pass.trans renewed.pass, fits.signature,
    Material.bind_of_thawed (by rw [material]; exact last) active (by rw [material]; exact thawed)
      mesh scene, fun u hu => ?_⟩
  have graph : r.material.graph = w.material.graph := by rw [material]
  rw [graph] at hu ⊢
  exact backed.reaches (Material.sameKinds_animate _ _ scene) reads hu

end Studio

/-! ## 8. Bones and morph targets together -/

namespace Material

def unfed : Material :=
  ((((loose.addBlock "bones" (.bones {})).addBlock "morph" (.morphTargets {})).addBlock "weights"
    (.input (.ofAttribute "weights" .vector4))).addBlock "world"
    (.input (.ofSystem .world))).addBlock "position" (.input (.ofAttribute "position" .vector3))

/-- The same connected. Bones and morph targets are roots of their own. -/
def deformed : Material :=
  let skinned := ((unfed.graph.link ⟨⟨5⟩, 0⟩ ⟨⟨3⟩, 0⟩).link ⟨⟨5⟩, 0⟩ ⟨⟨3⟩, 1⟩).link
    ⟨⟨6⟩, 0⟩ ⟨⟨3⟩, 2⟩
  { unfed with
    graph := (skinned.link ⟨⟨7⟩, 0⟩ ⟨⟨4⟩, 0⟩).link ⟨⟨1⟩, 0⟩ ⟨⟨2⟩, 0⟩
    roots := ⟨[⟨3⟩, ⟨4⟩], [⟨2⟩]⟩
    options := { autoConfigure := false } }

end Material

namespace Studio

open Relation

theorem edits_deformed {σ : Type} (s : σ) :
    ReflTransGen Material.Edit (empty s).material .deformed := by
  have blocks : ReflTransGen Material.Edit (empty s).material .unfed :=
    (((((edits_loose s).tail (.addBlock _ "bones" (.bones {}) nofun)).tail
      (.addBlock _ "morph" (.morphTargets {}) nofun)).tail
      (.addBlock _ "weights" (.input (.ofAttribute "weights" .vector4)) nofun)).tail
      (.addBlock _ "world" (.input (.ofSystem .world)) nofun)).tail
      (.addBlock _ "position" (.input (.ofAttribute "position" .vector3)) nofun)
  have color := edits_connectAll blocks [(⟨⟨5⟩, 0⟩, ⟨⟨3⟩, 0⟩), (⟨⟨5⟩, 0⟩, ⟨⟨3⟩, 1⟩),
    (⟨⟨6⟩, 0⟩, ⟨⟨3⟩, 2⟩), (⟨⟨7⟩, 0⟩, ⟨⟨4⟩, 0⟩), (⟨⟨1⟩, 0⟩, ⟨⟨2⟩, 0⟩)]
    Material.deformed.graph (by cbv)
  have rooted := (color.tail (.addRoot (show Material.addRoot _ ⟨3⟩ = .ok _ from rfl))).tail
    (.addRoot (show Material.addRoot _ ⟨4⟩ = .ok _ from rfl))
  exact rooted.tail (.tune rfl (le_refl _) rfl ⟨rfl, rfl, rfl⟩)

theorem ready_build {σ : Type} {w : Studio σ} {c : CompiledGraph} {m : Material}
    (h : w.material.build = (.ok c, m)) (b : Backend σ) {n k : Nat} (apart : k ≠ n) (mesh : Mesh)
    (scene : Scene) :
    (w.build.ready b n mesh scene).targets k = w.targets k ∧
      ∃ cache, (w.build.ready b n mesh scene).material = { m with cache } := by
  have built : w.build.material = m := congrArg Prod.snd h
  obtain ⟨cache, same⟩ :=
    w.build.material.material_ready b (w.build.targets n) mesh scene w.build.backend
  exact ⟨if_neg apart, cache, same.trans (by rw [built])⟩

/-- Two bones, and one morph target more than a program takes. -/
def crooked : Mesh where
  bones := [.identity, .identity]
  boneInfluencers := 1
  morph := some { influences := List.replicate 9 .one }

/-- The particle was built, and a thing without bones was drawn with it. -/
theorem deformed_bind_reaches :
    let w₁ : Studio Scripted := { material := .deformed, backend := {} }
    let w := w₁.build.ready .scripted 1 {} {}
    Backend.scripted.Answers (Scripted.Proceeds (· = .ready)) (Scripted.Gives (· = .ready))
        (Scripted.Known (· = .ready)) (· = .ready) ∧
      (empty ({} : Scripted)).Opened ∧ (empty ({} : Scripted)).backend.Gives (· = .ready) ∧
      ReflTransGen (Move .scripted (Scripted.Proceeds (· = .ready))) (empty ({} : Scripted)) w₁ ∧
      ReflTransGen (Move .scripted (Scripted.Proceeds (· = .ready))) w₁.build w ∧
      ∃ c m, w₁.material.build = (.ok c, m) ∧ w.material.compiled = some c ∧
        m.graph.SameKinds w.material.graph ∧ w.material.options.frozen = false ∧
        let r := w.material.ready .scripted (w.targets 0) crooked {} w.backend
        r.ready = true ∧ ∃ sent, (r.material.bind r.target crooked {}).1 = .ok sent ∧
          ("mBones", .matrices 2) ∈ sent ∧ ∃ v, ("morphTargetInfluences7", v) ∈ sent := by
  intro w₁ w
  have gives : (empty ({} : Scripted)).backend.Gives (· = .ready) := Scripted.gives_ready rfl rfl
  have run : ReflTransGen (Move .scripted (Scripted.Proceeds (· = .ready))) (empty ({} : Scripted))
      w₁ := run_edits (empty ({} : Scripted)) (edits_deformed ({} : Scripted))
  have later : ReflTransGen (Move .scripted (Scripted.Proceeds (· = .ready))) w₁.build w :=
    .single (.ready _ 1 {} {})
  obtain ⟨c, m, e, h, clean, -, hc, graph, found⟩ :=
    Material.exists_build_within (m := .deformed) 12
    (by unfold Material.build; rw [if_neg (by decide), if_neg (by decide)])
    (p := fun e => (Material.finish { Material.deformed with pass := Material.deformed.pass.next }
      e).toOption.all fun c =>
        let r := c.resources e.graph (c.prepareDefines e.graph crooked {} {})
        (c.participants e.graph .blocking).isEmpty &&
          (r.uniforms.any fun u => u.name == "mBones" && u.type == .matrixArray 2) &&
          r.uniforms.any fun u => u.name == "morphTargetInfluences7")
    (by decide +kernel) (by decide +kernel)
  rw [hc] at found
  simp only [Except.toOption, Option.all_some, Bool.and_eq_true, List.any_eq_true, beq_iff_eq,
    List.isEmpty_iff] at found
  obtain ⟨⟨unblocked, u, hu, bones⟩, v, hv, morph⟩ := found
  have built : w₁.material.build = (.ok c, m) := h
  obtain ⟨fresh, cache, material⟩ := ready_build built .scripted (n := 1) (k := 0) (by decide) {} {}
  have fresh : w.targets 0 = {} := fresh
  have material : w.material = { m with cache } := material
  have thawed : w.material.options.frozen = false := by
    rw [material]
    exact congrArg Options.frozen (Material.build_keeps h).1
  -- from here on nothing is evaluated
  clear_value w w₁
  have same : m.graph.SameKinds w.material.graph := by
    rw [material]
    exact .refl _
  have serves : w.material.Serves c := by
    obtain ⟨compiled, -⟩ := Material.compiled_of_build h
    rw [material]
    refine ⟨compiled, List.isEmpty_iff.mpr clean, fun b hb => ?_⟩
    change b ∈ c.participants m.graph .blocking at hb
    rw [graph, unblocked] at hb
    cases hb
  have hw : w.Specialized (Scripted.Gives (· = .ready)) (Scripted.Known (· = .ready)) :=
    ((Specialized.of_opened (opened_empty _) gives).run (Scripted.answers _) works_of_ready
      run).build.run (Scripted.answers _) works_of_ready later
  have ready := (ready_iff_serves (Scripted.answers _) hw 0 crooked {}).mpr ⟨c, serves⟩
  obtain ⟨p, sent, -, -, -, bound, reaches⟩ := bind_reaches_every_uniform (Scripted.answers _)
    (opened_empty _) gives run built later serves.compiled same thawed ready
  have declared : c.resources
      (w.material.ready .scripted (w.targets 0) crooked {} w.backend).material.graph
      (w.material.ready .scripted (w.targets 0) crooked {} w.backend).target.defines =
        c.resources e.graph (c.prepareDefines e.graph crooked {} {}) := by
    have reads := (prepared_ready (Scripted.answers _) hw serves 0 crooked {}).reads
    obtain ⟨_, unchanged⟩ :=
      w.material.material_ready .scripted (w.targets 0) crooked {} w.backend
    have graph : w.material.graph = e.graph := by
      rw [material]
      exact graph
    simp only [Studio.ready, if_true, fresh, graph] at reads
    rw [unchanged, graph, fresh]
    exact c.resources_congr e.graph (.of_reads reads)
  rw [declared] at reaches
  refine ⟨Scripted.answers _, opened_empty _, gives, run, later, c, m, built, serves.compiled, same,
    thawed, ready, sent, bound, ?_, ?_⟩
  · obtain ⟨name, -, sends⟩ := (reaches u hu).2 2 bones.2
    exact name ▸ (sends 2).mpr rfl
  · exact morph ▸ (reaches v hv).1

end Studio

end ShaderGraph
