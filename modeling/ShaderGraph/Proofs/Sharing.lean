import ShaderGraph.Proofs.Specializing

/-!
# Targets with a past

A target keeps its defines from one pass to the next, and a pass sets only those that its own blocks
are in charge of. What the blocks of an earlier pass have set is left over
(`CompiledGraph.LeavesOver`), and it shows in the program: `Studio.dimmed_history_shows` is a target
that still converts colors for an output that is gone. Nothing else of the past does. Where every
program is ready at once, a target to which nothing is left over shares the program of a new one
(`Studio.history_shows_iff_left_over`).
-/

namespace ShaderGraph

open DefineSet

/-! ## 1. What is left over -/

/-- What is set does not depend on what was there, and what is not set is as it was. -/
theorem DefineSet.Assigns.get?_eq {f : DefineSet → DefineSet} (hf : Assigns f) (d : DefineSet)
    (name : String) : (f d).get? name = ((f {}).get? name).or (d.get? name) := by
  rcases hf.sets name with ⟨v, set⟩ | left
  · rw [set d, set {}]
    rfl
  · rw [left d, left {}]
    rfl

/-- The define is on, and the pass does not set it. -/
def CompiledGraph.LeavesOver (c : CompiledGraph) (g : Graph) (mesh : Mesh) (scene : Scene)
    (d : DefineSet) (name : String) : Prop :=
  d.isDefined name = true ∧ (c.prepareDefines g mesh scene {}).get? name = none

/-- The target has the defines that a pass makes of those that it had, and they are processed. -/
structure DrawTarget.Prepared (t : DrawTarget) (c : CompiledGraph) (g : Graph) (mesh : Mesh)
    (scene : Scene) (past : DefineSet) : Prop where
  pass : t.pass = c.pass
  clean : t.defines.isDirty = false
  reads : ∀ name, t.defines.get? name = (c.prepareDefines g mesh scene past).get? name

namespace DrawTarget.Prepared

variable {old new : DrawTarget} {c : CompiledGraph} {g : Graph} {mesh : Mesh} {scene : Scene}
  {past : DefineSet}

theorem isDefined_of_leavesOver (ho : old.Prepared c g mesh scene past)
    (hn : new.Prepared c g mesh scene {}) {name : String}
    (h : c.LeavesOver g mesh scene past name) :
    old.defines.isDefined name = true ∧ new.defines.isDefined name = false := by
  obtain ⟨defined, unset⟩ := h
  have assigns := c.assigns_prepareDefines g mesh scene
  rw [isDefined_eq_isSome, isDefined_eq_isSome, ho.reads, hn.reads, assigns.get?_eq past, unset]
  rw [isDefined_eq_isSome] at defined
  exact ⟨defined, rfl⟩

theorem signature_eq (ho : old.Prepared c g mesh scene past)
    (hn : new.Prepared c g mesh scene {}) (so : Keyed.Sorted old.defines.values)
    (sn : Keyed.Sorted new.defines.values)
    (nothing : ∀ name, ¬c.LeavesOver g mesh scene past name) :
    old.defines.signature = new.defines.signature := by
  refine signature_eq_of_reads so sn fun name => ?_
  have assigns := c.assigns_prepareDefines g mesh scene
  rw [ho.reads, hn.reads, assigns.get?_eq past]
  cases unset : (c.prepareDefines g mesh scene {}).get? name with
  | some v => rfl
  | none =>
    have off : ¬past.isDefined name = true := fun defined => nothing name ⟨defined, unset⟩
    rw [isDefined_eq_isSome, Option.not_isSome_iff_eq_none] at off
    exact off

end DrawTarget.Prepared

/-! ## 2. Two checks -/

theorem Material.Serves.withCache {m : Material} {c : CompiledGraph} (h : m.Serves c)
    (cache : ProgramCache) : ({ m with cache } : Material).Serves c :=
  ⟨h.compiled, h.successful, h.unblocked⟩

namespace Studio

open Relation

variable {σ : Type} {b : Backend σ} {drift : σ → σ → Prop} {sane : σ → Prop}
  {known : σ → ProgramHandle → Prop} {w w' w₀ : Studio σ} {c : CompiledGraph} {n k : Nat}

theorem works_of_ready (status : ProgramStatus) (h : status = .ready) : status.Works := by
  rintro message rfl
  cases h

theorem prepared_ready (hb : b.Answers drift sane known (· = .ready))
    (hw : w.Specialized sane known) (serves : w.material.Serves c) (n : Nat) (mesh : Mesh)
    (scene : Scene) :
    ((w.ready b n mesh scene).targets n).Prepared c w.material.graph mesh scene
      (w.targets n).defines := by
  have renewed := Material.renewed_ready hb works_of_ready hw.held (hw.settled n)
    (hw.shares c serves.compiled n) serves mesh scene
  have assigns := c.assigns_prepareDefines w.material.graph mesh scene
  simp only [Studio.ready, if_true]
  refine ⟨renewed.pass, renewed.prompt fun _ h => h, fun name => ?_⟩
  have moved : ((w.targets n).moveTo c.pass).defines.get? name =
      (w.targets n).defines.get? name := by
    rw [get?, get?, DrawTarget.values_moveTo]
  rw [get?, renewed.values]
  change (c.prepareDefines w.material.graph mesh scene
    ((w.targets n).moveTo c.pass).defines).get? name = _
  rw [assigns.get?_eq, moved, ← assigns.get?_eq]

/-- Two targets that were checked one after the other have both the defines of the pass, each made
of its own past. -/
theorem prepared_pair (hb : b.Answers drift sane known (· = .ready))
    (hw : w.Specialized sane known) (serves : w.material.Serves c) (apart : n ≠ k) (mesh : Mesh)
    (scene : Scene) :
    let w' := (w.ready b n mesh scene).ready b k mesh scene
    w'.Specialized sane known ∧ w'.material.compiled = some c ∧
      (w'.targets n).Prepared c w.material.graph mesh scene (w.targets n).defines ∧
      (w'.targets k).Prepared c w.material.graph mesh scene (w.targets k).defines := by
  have first := prepared_ready hb hw serves n mesh scene
  have hw₁ := hw.step hb works_of_ready (.ready w n mesh scene)
  obtain ⟨cache, same⟩ := w.material.material_ready b (w.targets n) mesh scene w.backend
  have same : (w.ready b n mesh scene).material = { w.material with cache } := same
  have serves₁ : (w.ready b n mesh scene).material.Serves c := same ▸ serves.withCache cache
  have second := prepared_ready hb hw₁ serves₁ k mesh scene
  obtain ⟨cache', same'⟩ := (w.ready b n mesh scene).material.material_ready b
    ((w.ready b n mesh scene).targets k) mesh scene (w.ready b n mesh scene).backend
  -- either check leaves the other target alone
  refine ⟨hw₁.step hb works_of_ready (.ready _ k mesh scene), ?_, ?_, ?_⟩
  · exact (congrArg Material.compiled same').trans serves₁.compiled
  · have untouched : ((w.ready b n mesh scene).ready b k mesh scene).targets n =
        (w.ready b n mesh scene).targets n := if_neg apart
    rw [untouched]
    exact first
  · have untouched : (w.ready b n mesh scene).targets k = w.targets k := if_neg apart.symm
    rw [same, untouched] at second
    exact second

/-- In a pass where every program is ready at once, the past of a target shows in what is left over
to it and in nothing else: what is left over is defined for it and not for a new target, and without
that the two have one signature and one program, whichever is checked first. -/
theorem history_shows_iff_left_over (hb : b.Answers drift sane known (· = .ready))
    (start : w₀.Opened) (hs : sane w₀.backend) (run : ReflTransGen (Move b drift) w₀ w)
    (serves : w.material.Serves c) (apart : n ≠ k) (new : w.targets k = {}) (mesh : Mesh)
    (scene : Scene)
    (order : w' = (w.ready b n mesh scene).ready b k mesh scene ∨
      w' = (w.ready b k mesh scene).ready b n mesh scene) :
    let leftOver := c.LeavesOver w.material.graph mesh scene (w.targets n).defines
    (∀ name, leftOver name → (w'.targets n).defines.isDefined name = true ∧
      (w'.targets k).defines.isDefined name = false) ∧
    ((∀ name, ¬leftOver name) →
      (w'.targets n).defines.signature = (w'.targets k).defines.signature ∧
        ∃ p, (w'.targets n).active = some p ∧ (w'.targets k).active = some p) := by
  have hw : w.Specialized sane known :=
    (Specialized.of_opened start hs).run hb works_of_ready run
  obtain ⟨hw', compiled, hn, hk⟩ : w'.Specialized sane known ∧ w'.material.compiled = some c ∧
      (w'.targets n).Prepared c w.material.graph mesh scene (w.targets n).defines ∧
      (w'.targets k).Prepared c w.material.graph mesh scene {} := by
    rcases order with rfl | rfl
    · obtain ⟨hw', compiled, hn, hk⟩ := prepared_pair hb hw serves apart mesh scene
      rw [new] at hk
      exact ⟨hw', compiled, hn, hk⟩
    · obtain ⟨hw', compiled, hk, hn⟩ := prepared_pair hb hw serves apart.symm mesh scene
      rw [new] at hk
      exact ⟨hw', compiled, hn, hk⟩
  refine ⟨fun name => hn.isDefined_of_leavesOver hk, fun nothing => ?_⟩
  have signature := hn.signature_eq hk (hw'.settled n).sorted (hw'.settled k).sorted nothing
  refine ⟨signature, ?_⟩
  obtain ⟨r, hr, activeN⟩ := hw'.shares c compiled n hn.pass hn.clean
  obtain ⟨r', hr', activeK⟩ := hw'.shares c compiled k hk.pass hk.clean
  -- both programs were found under one pass and one signature
  rw [hn.pass, signature] at hr
  rw [hk.pass] at hr'
  cases hr.symm.trans hr'
  exact ⟨r.program, activeN, activeK⟩

theorem not_leavesOver {m : Material} (d : DefineSet) (mesh : Mesh) (scene : Scene)
    (hc : m.compiled = some c) (h : (m.compiled.any fun c => d.values.all fun e =>
      ((c.prepareDefines m.graph mesh scene {}).get? e.1).isSome) = true) (name : String) :
    ¬c.LeavesOver m.graph mesh scene d name := by
  rintro ⟨defined, unset⟩
  rw [hc, Option.any_some, List.all_eq_true] at h
  rw [isDefined_eq_isSome] at defined
  obtain ⟨v, hv⟩ := Option.isSome_iff_exists.mp defined
  have set := h (name, v) (Keyed.mem_of_get? (Option.filter_eq_some_iff.mp hv).1)
  rw [unset] at set
  cases set

/-- The particle built again: its first target has a past, and the second one is new. -/
theorem drawn_history_hidden :
    Backend.scripted.Answers (Scripted.Proceeds (· = .ready)) (Scripted.Gives (· = .ready))
        (Scripted.Known (· = .ready)) (· = .ready) ∧
      (empty ({} : Scripted)).Opened ∧ (empty ({} : Scripted)).backend.Gives (· = .ready) ∧
      ReflTransGen (Move .scripted (Scripted.Proceeds (· = .ready))) (empty ({} : Scripted))
        drawn.build ∧
      drawn.build.targets 1 = {} ∧
      (∃ c, drawn.build.material.Serves c ∧
        ∀ name, ¬c.LeavesOver drawn.build.material.graph {} {}
          (drawn.build.targets 0).defines name) ∧
      ∃ p, ((redrawn.ready .scripted 1 {} {}).targets 0).active = some p ∧
        ((redrawn.ready .scripted 1 {} {}).targets 1).active = some p := by
  have run : ReflTransGen (Move .scripted (Scripted.Proceeds (· = .ready))) (empty ({} : Scripted))
      drawn.build := run_drawn.tail (.build _)
  have gives : (empty ({} : Scripted)).backend.Gives (· = .ready) := Scripted.gives_ready rfl rfl
  have new : drawn.build.targets 1 = {} := by decide +kernel
  obtain ⟨c, serves⟩ := Material.exists_serves (m := drawn.build.material) (by decide +kernel)
  have nothing := not_leavesOver (drawn.build.targets 0).defines {} {} serves.compiled
    (by decide +kernel)
  obtain ⟨-, shared⟩ := history_shows_iff_left_over (Scripted.answers _) (opened_empty _) gives run
    serves (n := 0) (k := 1) (by decide) new {} {} (.inl rfl)
  exact ⟨Scripted.answers _, opened_empty _, gives, run, new, ⟨c, serves, nothing⟩,
    (shared nothing).2⟩

end Studio

/-! ## 3. A past that shows -/

namespace Material

/-- The particle with a second output, which converts its colors and is not connected yet. -/
def haloed : Material :=
  { tint.addBlock "glow" (.fragmentOutput { gamma := true }) with roots := ⟨[], [⟨2⟩, ⟨3⟩]⟩ }

def glowing : Material := { haloed with graph := haloed.graph.link ⟨⟨1⟩, 0⟩ ⟨⟨3⟩, 0⟩ }

theorem connect_haloed : haloed.graph.connect ⟨⟨1⟩, 0⟩ ⟨⟨3⟩, 0⟩ = .ok glowing.graph := by
  cbv

end Material

namespace Studio

open Relation

/-- Both outputs are drawn. -/
def glowed : Studio Scripted :=
  ({ material := .glowing, backend := {} } : Studio Scripted).build.ready .scripted 0 {} {}

/-- The second output is removed, and the material built again. -/
def dimmed : Studio Scripted :=
  ({ glowed with material := (glowed.material.removeBlock ⟨3⟩).1, edited := true } :
    Studio Scripted).build

theorem run_dimmed {drift : Scripted → Scripted → Prop} :
    ReflTransGen (Move .scripted drift) (empty ({} : Scripted)) dimmed := by
  have rooted : ReflTransGen Material.Edit .tint .haloed :=
    (ReflTransGen.single (.addBlock _ "glow" (.fragmentOutput { gamma := true }) nofun)).tail
      (.addRoot (show Material.addRoot _ ⟨3⟩ = .ok .haloed from rfl))
  have edits : ReflTransGen Material.Edit .tint .glowing :=
    rooted.tail (.connect Material.connect_haloed)
  have connected : ReflTransGen (Move .scripted drift) (tinted ({} : Scripted))
      { material := .glowing, backend := ({} : Scripted) } := run_edits (tinted _) edits
  have drawn : ReflTransGen (Move .scripted drift) (empty ({} : Scripted)) glowed :=
    (((run_tinted _).trans connected).tail (.build _)).tail (.ready _ 0 {} {})
  exact (drawn.tail (.edit (.removeBlock _ ⟨3⟩))).tail (.build _)

/-- The output that converted colors is gone, but a target that was drawn with it has a program that
is specialised for it, where a new target has another one. -/
theorem dimmed_history_shows :
    ReflTransGen (Move .scripted (Scripted.Proceeds (· = .ready))) (empty ({} : Scripted)) dimmed ∧
      (∃ c, dimmed.material.Serves c) ∧ dimmed.targets 1 = {} ∧
      let w := (dimmed.ready .scripted 0 {} {}).ready .scripted 1 {} {}
      (w.targets 0).defines.signature = "#define CAMERA_PERSPECTIVE\n#define CONVERTTOGAMMA1\n" ∧
        (w.targets 1).defines.signature = "#define CAMERA_PERSPECTIVE\n" ∧
        (w.targets 0).active.map Installed.handle ≠ (w.targets 1).active.map Installed.handle := by
  refine ⟨run_dimmed, Material.exists_serves (by decide +kernel), ?_⟩
  decide +kernel

end Studio

end ShaderGraph
