import ShaderGraph.Proofs.Caching
import ShaderGraph.Proofs.Completing

/-!
# Runs with one material

A run takes a material and everything that is drawn with it through edits, builds, checks for
readiness and draws, in any order (`Studio.Move`). The place where programs are compiled goes its
own way in between (`drift`), and someone may write the defines of a target by hand
(`Studio.Handling`).

What a check for readiness can do is said once: `Material.ready_of_serves` and
`Material.ready_of_idle` take it apart, and `Trial.found_attempt` says what a search for a program
comes back with. The first result is that the latest pass with a result wins
(`Studio.latest_pass_wins`). It is not always the latest one: a build that comes to a teleport
without an entry has begun a pass, and leaves the result of an earlier one
(`Studio.stale_program_taken`).
-/

namespace ShaderGraph

open List Material Nat DrawTarget

/-! ## 1. Edits -/

namespace Material

variable {m m' : Material}

theorem SamePasses.refl (m : Material) : m.SamePasses m := ⟨rfl, rfl, rfl⟩

/-- The pass of what is compiled, or the current one if nothing is. -/
def newest (m : Material) : PassId := m.compiled.elim m.pass CompiledGraph.pass

theorem newest_of_compiled {c : CompiledGraph} (h : m.compiled = some c) : m.newest = c.pass := by
  rw [newest, h]
  rfl

theorem newest_of_none (h : m.compiled = none) : m.newest = m.pass := by
  rw [newest, h]
  rfl

/-- One edit. What is refused changes nothing, and a load that fails leaves what it has done up to
that point. The number of the pass and its result are not for editing; only to dispose of a material
drops them. -/
inductive Edit : Material → Material → Prop
  | addBlock (m : Material) (name : String) (kind : Kind) :
      (∀ e ∈ kind.teleportEntry, m.graph.Handed e) → Edit m (m.addBlock name kind)
  | connect {m : Material} {source target : SocketRef} {graph : Graph} :
      m.graph.connect source target = .ok graph → Edit m { m with graph }
  | disconnect {m : Material} {target : SocketRef} {graph : Graph} :
      m.graph.disconnect target = .ok graph → Edit m { m with graph }
  | setTeleportEntry {m : Material} {out : BlockId} {entry : Option BlockId} {graph : Graph} :
      m.graph.setTeleportEntry out entry = .ok graph → Edit m { m with graph }
  | addRoot {m m' : Material} {id : BlockId} : m.addRoot id = .ok m' → Edit m m'
  | removeRoot (m : Material) (id : BlockId) : Edit m (m.removeRoot id)
  | removeBlock (m : Material) (id : BlockId) : Edit m (m.removeBlock id).1
  | clear (m : Material) : Edit m m.clear
  | dispose (m : Material) : Edit m m.dispose
  | setToDefault {m m' : Material} {mode : Mode} : m.setToDefault mode = .ok m' → Edit m m'
  | load (m : Material) (d : Document) {r : Registry} (merge : Bool) :
      (∀ tag kind, r.create tag = .ok kind → ∀ e ∈ kind.teleportEntry, m.graph.Handed e) →
      Edit m (m.load d r merge).2
  /-- The name, the comments and the settings of a block are written. -/
  | configure (m : Material) (id : BlockId) {f : Block → Block} :
      (∀ b : Block, b.Configured (f b)) → Edit m { m with graph := m.graph.modify id f }
  /-- Options, optimizers and descriptions are written. Identities are counted for all materials
  together, so that the counter may run ahead. -/
  | tune {m m' : Material} : m'.graph.blocks = m.graph.blocks →
      m.graph.nextId ≤ m'.graph.nextId → m'.roots = m.roots → m.SamePasses m' → Edit m m'

theorem stable_proper : Stable Graph.Handed fun m => m.graph.Proper where
  lasting := Graph.lasting_handed
  addBlock name _ hm known := hm.insert name known
  connect hm h := hm.connect h
  setTeleportEntry hm h := hm.setTeleportEntry h
  addRoot hm h := by
    obtain ⟨b, -, -, rfl⟩ := addRoot_eq_ok_iff.mp h
    exact hm
  adjust _ _ hm h := hm.configure fun b => (h b).toConfigured
  clear _ := .empty _
  tune hm graph _ _ _ _ := graph ▸ hm

theorem stable_samePasses (m : Material) : Stable Graph.Handed m.SamePasses where
  lasting := Graph.lasting_handed
  addBlock _ _ hm _ := ⟨hm.pass, hm.compiled, hm.cache⟩
  connect hm _ := ⟨hm.pass, hm.compiled, hm.cache⟩
  setTeleportEntry hm _ := ⟨hm.pass, hm.compiled, hm.cache⟩
  addRoot hm h := by
    obtain ⟨b, -, -, rfl⟩ := addRoot_eq_ok_iff.mp h
    exact ⟨hm.pass, hm.compiled, hm.cache⟩
  adjust _ _ hm _ := ⟨hm.pass, hm.compiled, hm.cache⟩
  clear hm := ⟨hm.pass, hm.compiled, hm.cache⟩
  tune hm _ _ _ _ same := ⟨same.pass.trans hm.pass, same.compiled.trans hm.compiled,
    same.cache.trans hm.cache⟩

theorem Edit.proper (h : m.Edit m') (hg : m.graph.Proper) : m'.graph.Proper := by
  cases h with
  | addBlock name kind known => exact hg.insert name known
  | connect h => exact hg.connect h
  | disconnect h => exact hg.disconnect h
  | setTeleportEntry h => exact hg.setTeleportEntry h
  | addRoot h => exact stable_proper.addRoot hg h
  | removeRoot id => exact hg
  | removeBlock id => exact hg.remove id
  | clear => exact .empty _
  | dispose => exact .empty _
  | setToDefault h => exact stable_proper.setToDefault hg h
  | load d merge known => exact stable_proper.load d merge hg known
  | configure id h => exact hg.configure h
  | tune blocks counter =>
    refine hg.of_outlines ?_ counter
    rw [Graph.outlines, blocks]
    rfl

theorem Edit.passes (h : m.Edit m') : m.SamePasses m' ∨ m' = m.dispose := by
  cases h with
  | dispose => exact .inr rfl
  | addRoot h => exact .inl ((stable_samePasses m).addRoot (.refl m) h)
  | setToDefault h => exact .inl ((stable_samePasses m).setToDefault (.refl m) h)
  | load d merge known => exact .inl ((stable_samePasses m).load d merge (.refl m) known)
  | tune _ _ _ same => exact .inl same
  | _ => exact .inl ⟨rfl, rfl, rfl⟩

end Material

/-! ## 2. Searches for a program -/

namespace ProgramCache

variable {cache : ProgramCache} {pass : PassId} {signature : String} {r : ProgramRecord}

theorem of_find? (h : cache.find? pass signature = some r) :
    r ∈ cache.records ∧ r.program.pass = pass ∧ r.program.signature = signature := by
  have matching := find?_some h
  rw [Bool.and_eq_true, beq_iff_eq, beq_iff_eq] at matching
  exact ⟨mem_of_find?_eq_some h, matching⟩

end ProgramCache

/-- A property of the place where programs are compiled that its own operations keep. -/
structure Backend.Keeps {σ : Type} (b : Backend σ) (P : σ → Prop) : Prop where
  create : ∀ source s, P s → P (b.create source s).2
  poll : ∀ h s, P s → P (b.poll h s).2

namespace Trial

variable {σ : Type} {b : Backend σ} {c : CompiledGraph} {g : Graph} {P : σ → Prop}

theorem pass_obtain (t : Trial σ) (d : DefineSet) (fills : StageFills) :
    (t.obtain b c g d fills).1.pass = c.pass := by
  unfold obtain
  split
  · rename_i record h
    exact (ProgramCache.of_find? h).2.1
  · rfl

theorem keeps_obtain (hb : b.Keeps P) {t : Trial σ} (ht : P t.backend) (d : DefineSet)
    (fills : StageFills) : P (t.obtain b c g d fills).2.backend := by
  unfold obtain
  split
  · exact ht
  · exact hb.create _ _ ht

theorem backend_report (t : Trial σ) (program : Installed) (message : String) :
    (t.report program message).backend = t.backend := by
  unfold report
  split
  · rfl
  · split <;> rfl

/-- What a search comes back with: a program of the pass, with the answer that it got last. -/
structure Found (b : Backend σ) (c : CompiledGraph) (P : σ → Prop) (program : Installed)
    (status : ProgramStatus) (s : σ) : Prop where
  pass : program.pass = c.pass
  answer : ∃ s₀, P s₀ ∧ b.poll program.handle s₀ = (status, s)

theorem found_attempt (hb : b.Keeps P) {steps : List (Nat × List String)} {d : DefineSet}
    {fills : StageFills} {t : Trial σ} (ht : P t.backend) :
    let out := t.attempt b c g steps d fills
    Found b c P out.1.1 out.1.2 out.2.backend := by
  induction steps generalizing d fills t with
  | nil =>
    have first := keeps_obtain (c := c) (g := g) hb ht d fills
    unfold attempt
    dsimp only
    split
    · refine ⟨pass_obtain t d fills, _, first, ?_⟩
      rw [backend_report]
    · exact ⟨pass_obtain t d fills, _, first, rfl⟩
  | cons step rest ih =>
    have first := keeps_obtain (c := c) (g := g) hb ht d fills
    unfold attempt
    dsimp only
    split
    · refine ih ?_
      rw [backend_report]
      exact hb.poll _ _ first
    · exact ⟨pass_obtain t d fills, _, first, rfl⟩

end Trial

/-! ## 3. Checks for readiness -/

namespace DrawTarget

variable {t : DrawTarget} {pass : PassId} {p : Installed}

theorem active_moveTo (t : DrawTarget) (pass : PassId) : (t.moveTo pass).active = t.active := by
  unfold moveTo
  split <;> rfl

theorem pending_moveTo (h : (t.moveTo pass).pending = some p) :
    t.pass = pass ∧ t.pending = some p := by
  unfold moveTo at h
  split at h
  · exact ⟨‹_›, h⟩
  · cases h

/-- What becomes of a program that was found. The program in use is `kept` if it is ready. -/
inductive Adopted (t t' : DrawTarget) (hotSwap kept : Bool) (program : Installed) :
    ProgramStatus → Prop
  /-- It is taken up, even if it is not ready, when there is nothing better. -/
  | taken {status : ProgramStatus} : (hotSwap = true → kept = true → status = .ready) →
      t'.active = some program → t'.pending = none → Adopted t t' hotSwap kept program status
  | awaited : kept = true → t'.active = t.active → t'.pending = some program →
      Adopted t t' hotSwap kept program .pending
  | refused (message : String) : kept = true → t'.active = t.active → t'.pending = none →
      Adopted t t' hotSwap kept program (.failed message)

theorem adopted_adopt (t : DrawTarget) (hotSwap kept : Bool) (program : Installed)
    (status : ProgramStatus) :
    Adopted t (t.adopt hotSwap kept program status) hotSwap kept program status := by
  cases status with
  | ready => exact .taken (fun _ _ => rfl) rfl rfl
  | pending =>
    cases hotSwap with
    | false => exact .taken (fun h => nomatch h) rfl rfl
    | true =>
      cases kept with
      | false => exact .taken (fun _ h => nomatch h) rfl rfl
      | true => exact .awaited rfl rfl rfl
  | failed message =>
    cases kept with
    | false => exact .taken (fun _ h => nomatch h) rfl rfl
    | true => exact .refused message rfl rfl rfl

end DrawTarget

/-- The first steps of a check all succeed: the material is built without problems, and no block
holds a program up. -/
structure Material.Serves (m : Material) (c : CompiledGraph) : Prop where
  compiled : m.compiled = some c
  successful : c.isSuccessful = true
  unblocked : ∀ block ∈ c.participants m.graph .blocking, block.kind.isReady = true

namespace Material

variable {σ : Type} {m : Material} {b : Backend σ} {c : CompiledGraph} {t : DrawTarget} {s : σ}
  {mesh : Mesh} {scene : Scene} {P : σ → Prop}

theorem exists_serves (h : (m.compiled.any fun c => c.isSuccessful &&
    (c.participants m.graph .blocking).all fun block => block.kind.isReady) = true) :
    ∃ c, m.Serves c := by
  cases hc : m.compiled with
  | none => simp [hc] at h
  | some c =>
    rw [hc, Option.any_some, Bool.and_eq_true, all_eq_true] at h
    exact ⟨c, hc, h.1, h.2⟩

/-- A target that belongs to the pass, with the defines for a mesh and a scene. -/
def prepared (m : Material) (c : CompiledGraph) (t : DrawTarget) (mesh : Mesh) (scene : Scene) :
    DrawTarget :=
  { t.moveTo c.pass with
    defines := c.prepareDefines m.graph mesh scene (t.moveTo c.pass).defines }

/-- What is done for a target whose defines are set. -/
def consult (m : Material) (b : Backend σ) (c : CompiledGraph) (t : DrawTarget) (s : σ) :
    Readiness σ :=
  if t.defines.isDirty then m.specialize b c t s
  else
    { ready := false, material := m, target := (awaitPending b t s).1
      backend := (awaitPending b t s).2 }

/-- A check that gets to the programs answers by the program that is then in use. -/
theorem ready_of_serves (h : m.Serves c) :
    let r := m.consult b c (m.prepared c t mesh scene) s
    m.ready b t mesh scene s =
      { r with
        ready := (activeReady b r.target r.backend).1
        backend := (activeReady b r.target r.backend).2
        reports := if m.watched then r.reports else [] } := by
  have open' : ((c.participants m.graph .blocking).all fun block => block.kind.isReady) = true :=
    List.all_eq_true.mpr h.unblocked
  unfold ready
  simp only [h.compiled, h.successful, open', Bool.not_true, Bool.false_eq_true, if_false]
  rfl

/-- Any other check says no and leaves all but the target alone; the target may come to belong to
the pass. -/
theorem ready_of_idle (b : Backend σ) (t : DrawTarget) (mesh : Mesh) (scene : Scene) (s : σ)
    (h : ∀ c, ¬m.Serves c) :
    ∃ t', m.ready b t mesh scene s =
        { ready := false, material := m, target := t', backend := s } ∧
      (t' = t ∨ ∃ c, m.compiled = some c ∧ t' = t.moveTo c.pass) := by
  unfold ready
  cases hc : m.compiled with
  | none => exact ⟨t, rfl, .inl rfl⟩
  | some c =>
    dsimp only
    split
    · exact ⟨t, rfl, .inl rfl⟩
    · rename_i successful
      split
      · exact ⟨_, rfl, .inr ⟨c, rfl, rfl⟩⟩
      · rename_i unblocked
        refine absurd ⟨hc, by simpa using successful, ?_⟩ (h c)
        simpa using unblocked

theorem keeps_activeReady (hb : b.Keeps P) (t : DrawTarget) (hs : P s) :
    P (activeReady b t s).2 := by
  unfold activeReady
  split
  · exact hs
  · exact hb.poll _ _ hs

theorem keeps_awaitPending (hb : b.Keeps P) (t : DrawTarget) (hs : P s) :
    P (awaitPending b t s).2 := by
  unfold awaitPending
  dsimp only
  split
  · exact hs
  · exact hb.poll _ _ hs

/-- What is found for the defines of a target. -/
def search (m : Material) (b : Backend σ) (c : CompiledGraph) (t : DrawTarget) (s : σ) :
    (Installed × ProgramStatus) × Trial σ :=
  let t := t.refreshAll c m.graph
  ({ cache := m.cache, backend := s, stats := t.stats } : Trial σ).attempt b c m.graph
    (c.fallbackChain m.graph t.defines).steps t.defines t.fills

/-- A target takes up what was found, or waits for it. -/
theorem specialize_eq (m : Material) (b : Backend σ) (c : CompiledGraph) (t : DrawTarget) (s : σ) :
    let found := m.search b c t s
    let u := { t.refreshAll c m.graph with stats := found.2.stats }
    let kept := activeReady b u found.2.backend
    m.specialize b c t s =
      { ready := kept.1, material := { m with cache := found.2.cache }
        target := u.adopt m.options.hotSwap kept.1 found.1.1 found.1.2
        backend := kept.2, reports := found.2.reports } := rfl

theorem found_search (hb : b.Keeps P) (hs : P s) :
    let found := m.search b c t s
    Trial.Found b c P found.1.1 found.1.2 found.2.backend :=
  Trial.found_attempt hb hs

theorem keeps_search (hb : b.Keeps P) (hs : P s) : P (m.search b c t s).2.backend := by
  obtain ⟨-, s₀, hs₀, answer⟩ := found_search (m := m) (c := c) (t := t) hb hs
  have asked := hb.poll (m.search b c t s).1.1.handle s₀ hs₀
  rw [answer] at asked
  exact asked

theorem keeps_consult (hb : b.Keeps P) (hs : P s) : P (m.consult b c t s).backend := by
  unfold consult
  split
  · exact keeps_activeReady hb _ (keeps_search hb hs)
  · exact keeps_awaitPending hb t hs

/-- What the operations of the place where programs are compiled keep, a check keeps. -/
theorem keeps_ready (hb : b.Keeps P) (hs : P s) (mesh : Mesh) (scene : Scene) :
    P (m.ready b t mesh scene s).backend := by
  by_cases h : ∃ c, m.Serves c
  · obtain ⟨c, h⟩ := h
    rw [ready_of_serves h]
    exact keeps_activeReady hb _ (keeps_consult hb hs)
  · obtain ⟨t', eq, -⟩ := ready_of_idle b t mesh scene s fun c hc => h ⟨c, hc⟩
    rw [eq]
    exact hs

theorem graph_bind (m : Material) (t : DrawTarget) (mesh : Mesh) (scene : Scene)
    (hg : m.graph.Proper) : (m.bind t mesh scene).2.1.graph.Proper := by
  have animated : ∀ (ids : List BlockId) (g : Graph), g.Proper → (animate g ids scene).Proper := by
    intro ids
    induction ids with
    | nil => exact fun g hg => hg
    | cons id rest ih =>
      refine fun g hg => ih _ (hg.configure fun b => ?_)
      cases hk : b.kind <;> exact ⟨rfl, rfl, rfl, by rw [hk]; rfl, by rw [hk]; rfl⟩
  unfold bind
  split
  · exact hg
  · exact hg
  · exact animated _ _ hg

theorem samePasses_bind (m : Material) (t : DrawTarget) (mesh : Mesh) (scene : Scene) :
    m.SamePasses (m.bind t mesh scene).2.1 := by
  unfold bind
  split <;> exact ⟨rfl, rfl, rfl⟩

theorem target_bind (m : Material) (t : DrawTarget) (mesh : Mesh) (scene : Scene) :
    ∃ lastBound, (m.bind t mesh scene).2.2 = { t with lastBound } := by
  unfold bind
  split
  · exact ⟨t.lastBound, rfl⟩
  · exact ⟨t.lastBound, rfl⟩
  · exact ⟨_, rfl⟩

theorem material_ready (m : Material) (b : Backend σ) (t : DrawTarget) (mesh : Mesh) (scene : Scene)
    (s : σ) : ∃ cache, (m.ready b t mesh scene s).material = { m with cache } := by
  by_cases h : ∃ c, m.Serves c
  · obtain ⟨c, h⟩ := h
    rw [ready_of_serves h]
    unfold consult
    split
    · exact ⟨_, rfl⟩
    · exact ⟨m.cache, rfl⟩
  · obtain ⟨t', eq, -⟩ := ready_of_idle b t mesh scene s fun c hc => h ⟨c, hc⟩
    exact ⟨m.cache, by rw [eq]⟩

end Material

/-! ## 4. Moves -/

namespace Studio

open Relation

variable {σ : Type} {b : Backend σ} {drift : σ → σ → Prop} {w w' : Studio σ} {t : DrawTarget}
  {pass : PassId} {m m' : Material}

/-- Puts a target in the place of the one of a number. -/
def setTarget (w : Studio σ) (n : Nat) (t : DrawTarget) : Studio σ :=
  { w with targets := fun k => if k = n then t else w.targets k }

theorem forall_setTarget {P : Nat → DrawTarget → Prop} {n : Nat} (old : ∀ k, P k (w.targets k))
    (new : P n t) (k : Nat) : P k ((w.setTarget n t).targets k) := by
  by_cases h : k = n
  · subst h
    simpa only [setTarget, if_true] using new
  · simpa only [setTarget, h, if_false] using old k

/-- Draws with the target of a number. -/
def bind (w : Studio σ) (n : Nat) (mesh : Mesh) (scene : Scene) : Studio σ :=
  let (_, material, target) := w.material.bind (w.targets n) mesh scene
  { w.setTarget n target with material }

/-- What may happen next. Readiness may be checked at any time, also between an edit and the build
that takes it up. -/
inductive Move (b : Backend σ) (drift : σ → σ → Prop) : Studio σ → Studio σ → Prop
  | edit {w : Studio σ} {m : Material} : w.material.Edit m →
      Move b drift w { w with material := m, edited := true }
  | build (w : Studio σ) : Move b drift w w.build
  | ready (w : Studio σ) (n : Nat) (mesh : Mesh) (scene : Scene) :
      Move b drift w (w.ready b n mesh scene)
  | bind (w : Studio σ) (n : Nat) (mesh : Mesh) (scene : Scene) :
      Move b drift w (w.bind n mesh scene)
  /-- The place where programs are compiled goes its own way. -/
  | drift {w : Studio σ} {s : σ} : drift w.backend s → Move b drift w { w with backend := s }

/-- A move, or someone writes the defines of a target. -/
inductive Handling (b : Backend σ) (drift : σ → σ → Prop) : Studio σ → Studio σ → Prop
  | move {w w' : Studio σ} : Move b drift w w' → Handling b drift w w'
  | define (w : Studio σ) (n : Nat) (defines : DefineSet) :
      Handling b drift w (w.setTarget n { w.targets n with defines })

/-- A material without blocks, and nothing drawn with it yet. -/
inductive Opened : Studio σ → Prop
  | new (name : String) (options : Options) (nextId : Nat) (s : σ) :
      Opened { material := { name, options, graph := { nextId } }, backend := s }

/-! ## 5. The latest pass wins -/

/-- A target after it was looked at for a pass: what is new in it is of that pass. -/
structure Followed (pass : PassId) (t t' : DrawTarget) : Prop where
  active : t'.active = t.active ∨ ∃ p, t'.active = some p ∧ p.pass = pass
  pending : ∀ p, t'.pending = some p → p.pass = t'.pass

theorem followed_awaitPending (b : Backend σ) (ht : t.pass = pass)
    (waits : ∀ p, t.pending = some p → p.pass = t.pass) (s : σ) :
    Followed pass t (Material.awaitPending b t s).1 := by
  unfold Material.awaitPending
  dsimp only
  split
  · rename_i none
    exact ⟨.inl rfl, fun p hp => nomatch none.symm.trans hp⟩
  · rename_i p hp
    dsimp only
    split
    · exact ⟨.inr ⟨p, rfl, (waits p hp).trans ht⟩, fun _ h => nomatch h⟩
    · exact ⟨.inl rfl, waits⟩

theorem followed_specialize {c : CompiledGraph} (b : Backend σ) (ht : t.pass = c.pass) (s : σ) :
    Followed c.pass t (m.specialize b c t s).target := by
  have found := found_search (m := m) (b := b) (c := c) (t := t) (P := fun _ => True)
    (s := s) ⟨fun _ _ _ => trivial, fun _ _ _ => trivial⟩ trivial
  have refreshed := t.refreshed_refreshAll c m.graph
  rw [specialize_eq]
  generalize m.search b c t s = found' at found ⊢
  obtain ⟨⟨program, status⟩, trial⟩ := found'
  generalize (Material.activeReady b _ trial.backend).1 = kept
  have akin := akin_adopt { t.refreshAll c m.graph with stats := trial.stats }
    m.options.hotSwap kept program status
  have adopted := adopted_adopt { t.refreshAll c m.graph with stats := trial.stats }
    m.options.hotSwap kept program status
  have pass : (t.refreshAll c m.graph).pass = c.pass := refreshed.pass.trans ht
  cases adopted with
  | taken _ active pending =>
    exact ⟨.inr ⟨program, active, found.pass⟩, fun p hp => nomatch pending.symm.trans hp⟩
  | awaited _ active pending =>
    refine ⟨.inl (active.trans refreshed.active), fun p hp => ?_⟩
    cases pending.symm.trans hp
    exact found.pass.trans (akin.pass.trans pass).symm
  | refused message _ active pending =>
    exact ⟨.inl (active.trans refreshed.active), fun p hp => nomatch pending.symm.trans hp⟩

/-- A check for readiness takes up no program but those of the pass that it is made for. -/
theorem followed_ready (b : Backend σ) (built : ∀ c, m.compiled = some c → c.pass = pass)
    (waits : ∀ p, t.pending = some p → p.pass = t.pass) (mesh : Mesh) (scene : Scene) (s : σ) :
    Followed pass t (m.ready b t mesh scene s).target := by
  have moved : ∀ pass', ∀ p, (t.moveTo pass').pending = some p →
      p.pass = (t.moveTo pass').pass := by
    intro pass' p hp
    obtain ⟨same, hp⟩ := pending_moveTo hp
    rw [t.pass_moveTo, waits p hp, same]
  by_cases h : ∃ c, m.Serves c
  · obtain ⟨c, h⟩ := h
    obtain rfl := built c h.compiled
    rw [ready_of_serves h]
    have prepared : (m.prepared c t mesh scene).pass = c.pass := t.pass_moveTo c.pass
    have followed : Followed c.pass (m.prepared c t mesh scene)
        (m.consult b c (m.prepared c t mesh scene) s).target := by
      unfold Material.consult
      split
      · exact followed_specialize b prepared s
      · exact followed_awaitPending b prepared (moved c.pass) s
    refine ⟨?_, followed.pending⟩
    rw [← t.active_moveTo c.pass]
    exact followed.active
  · obtain ⟨t', eq, same | ⟨c, -, same⟩⟩ :=
      ready_of_idle b t mesh scene s fun c hc => h ⟨c, hc⟩
    · rw [eq, same]
      exact ⟨.inl rfl, waits⟩
    · rw [eq, same]
      exact ⟨.inl (t.active_moveTo c.pass), moved c.pass⟩

/-- What holds at every moment of a run. -/
structure Ordered (w : Studio σ) : Prop where
  graph : w.material.graph.Proper
  compiled : ∀ c, w.material.compiled = some c → c.pass.index ≤ w.material.pass.index
  pending : ∀ n p, (w.targets n).pending = some p → p.pass = (w.targets n).pass
  active : ∀ n p, (w.targets n).active = some p → p.pass.index ≤ w.material.newest.index

/-- What one step of a run does to the passes: that of what is compiled does not fall, and a program
that is taken up is of that one. -/
structure Advances (w w' : Studio σ) : Prop where
  newest : w.material.newest.index ≤ w'.material.newest.index
  active : ∀ n, (w'.targets n).active = (w.targets n).active ∨
    ∃ p, (w'.targets n).active = some p ∧ p.pass = w'.material.newest

namespace Ordered

variable {m : Material} {n : Nat}

section

variable (hw : w.Ordered)
include hw

theorem newest_le : w.material.newest.index ≤ w.material.pass.index := by
  cases hc : w.material.compiled with
  | none => rw [newest_of_none hc]
  | some c => exact newest_of_compiled hc ▸ hw.compiled c hc

theorem withTarget (hg : m.graph.Proper) (same : m.pass = w.material.pass)
    (compiled : m.compiled = w.material.compiled) {t : DrawTarget}
    (followed : Followed w.material.newest (w.targets n) t) (s : σ) :
    ({ w.setTarget n t with material := m, backend := s } : Studio σ).Ordered ∧
      w.Advances { w.setTarget n t with material := m, backend := s } := by
  have newest : m.newest = w.material.newest := by rw [Material.newest, same, compiled]; rfl
  have active : ∀ k, ((w.setTarget n t).targets k).active = (w.targets k).active ∨
      ∃ p, ((w.setTarget n t).targets k).active = some p ∧ p.pass = m.newest := by
    rw [newest]
    exact forall_setTarget (P := fun k t => t.active = (w.targets k).active ∨
      ∃ p, t.active = some p ∧ p.pass = w.material.newest) (fun _ => .inl rfl) followed.active
  refine ⟨⟨hg, ?_, ?_, ?_⟩, newest ▸ le_refl _, active⟩
  · rw [compiled, same]
    exact hw.compiled
  · exact forall_setTarget (P := fun _ t => ∀ p, t.pending = some p → p.pass = t.pass) hw.pending
      followed.pending
  · intro k p hp
    rcases active k with old | ⟨q, hq, current⟩
    · exact newest ▸ hw.active k p (old ▸ hp)
    · cases hq.symm.trans hp
      exact current ▸ le_refl _

/-- Only the material changes, to one whose result is not of an earlier pass. -/
theorem withMaterial (hg : m.graph.Proper)
    (compiled : ∀ c, m.compiled = some c → c.pass.index ≤ m.pass.index)
    (later : w.material.newest.index ≤ m.newest.index) (edited : Bool) :
    ({ w with material := m, edited } : Studio σ).Ordered ∧
      w.Advances { w with material := m, edited } :=
  ⟨⟨hg, compiled, hw.pending, fun n p hp => (hw.active n p hp).trans later⟩, later,
    fun _ => .inl rfl⟩

theorem build : w.build.Ordered ∧ w.Advances w.build := by
  have graph := (extends_build hw.graph).proper
  rcases build_outcomes hw.graph with ⟨fault, same⟩ | ⟨next, turnout⟩
  · have unchanged : w.material.build.2 = w.material := congrArg Prod.snd same
    refine hw.withMaterial graph ?_ (le_of_eq ?_) _
    · rw [unchanged]
      exact hw.compiled
    · rw [unchanged]
  · have begun : w.material.pass.index ≤ w.material.build.2.pass.index := by
      rw [next]
      exact le_succ _
    cases turnout with
    | faulty fault _ _ none =>
      refine hw.withMaterial graph (fun c hc => nomatch none.symm.trans hc) ?_ _
      rw [newest_of_none none]
      exact hw.newest_le.trans begun
    | stalled x _ _ kept =>
      refine hw.withMaterial graph (fun c hc => ?_) ?_ _
      · exact (hw.compiled c (kept ▸ hc)).trans begun
      · cases hc : w.material.compiled with
        | none => rwa [newest_of_none hc, newest_of_none (kept.trans hc)]
        | some c => rw [newest_of_compiled hc, newest_of_compiled (kept.trans hc)]
    | finished c _ _ compiled pass =>
      have current : c.pass = w.material.build.2.pass := pass.trans next.symm
      refine hw.withMaterial graph (fun c' hc' => ?_) ?_ _
      · cases compiled.symm.trans hc'
        rw [current]
      · rw [newest_of_compiled compiled, current]
        exact hw.newest_le.trans begun

theorem edit (h : w.material.Edit m) :
    ({ w with material := m, edited := true } : Studio σ).Ordered ∧
      w.Advances { w with material := m, edited := true } := by
  have graph := h.proper hw.graph
  rcases h.passes with same | rfl
  · refine hw.withMaterial graph (fun c hc => ?_) (le_of_eq ?_) _
    · rw [same.pass]
      exact hw.compiled c (same.compiled ▸ hc)
    · rw [newest, newest, same.pass, same.compiled]
  · exact hw.withMaterial graph (fun c hc => nomatch hc) hw.newest_le _

theorem step (h : Handling b drift w w') : w'.Ordered ∧ w.Advances w' := by
  cases h with
  | define n defines =>
    exact hw.withTarget hw.graph rfl rfl (t := { w.targets n with defines })
      ⟨.inl rfl, hw.pending n⟩ w.backend
  | move h =>
    cases h with
    | edit h => exact hw.edit h
    | build => exact hw.build
    | ready n mesh scene =>
      obtain ⟨cache, same⟩ := w.material.material_ready b (w.targets n) mesh scene w.backend
      have graph :
          (w.material.ready b (w.targets n) mesh scene w.backend).material.graph.Proper := by
        rw [same]
        exact hw.graph
      exact hw.withTarget graph (by rw [same]) (by rw [same])
        (followed_ready b (fun c hc => (newest_of_compiled hc).symm) (hw.pending n) mesh scene
          w.backend) _
    | bind n mesh scene =>
      have same := w.material.samePasses_bind (w.targets n) mesh scene
      obtain ⟨lastBound, target⟩ := w.material.target_bind (w.targets n) mesh scene
      have followed : Followed w.material.newest (w.targets n)
          (w.material.bind (w.targets n) mesh scene).2.2 := by
        rw [target]
        exact ⟨.inl rfl, hw.pending n⟩
      exact hw.withTarget (w.material.graph_bind _ mesh scene hw.graph) same.pass same.compiled
        followed w.backend
    | drift h =>
      exact ⟨⟨hw.graph, hw.compiled, hw.pending, hw.active⟩, le_refl _, fun n => .inl rfl⟩

theorem run (h : ReflTransGen (Handling b drift) w w') : w'.Ordered := by
  induction h with
  | refl => exact hw
  | tail _ hstep ih => exact (ih.step hstep).1

end

theorem of_opened (h : w.Opened) : w.Ordered := by
  cases h
  exact ⟨.empty _, fun _ h => (nomatch h), fun _ _ h => (nomatch h), fun _ _ h => (nomatch h)⟩

end Ordered

/-- Apart from builds, no step begins a pass or changes what is compiled; at most it is dropped. -/
theorem Handling.passes (h : Handling b drift w w') : w' = w.build ∨
    w'.material.pass = w.material.pass ∧
      (w'.material.compiled = w.material.compiled ∨ w'.material.compiled = none) := by
  cases h with
  | define n defines => exact .inr ⟨rfl, .inl rfl⟩
  | move h =>
    cases h with
    | edit h =>
      rcases h.passes with same | rfl
      · exact .inr ⟨same.pass, .inl same.compiled⟩
      · exact .inr ⟨rfl, .inr rfl⟩
    | build => exact .inl rfl
    | ready n mesh scene =>
      obtain ⟨cache, same⟩ := w.material.material_ready b (w.targets n) mesh scene w.backend
      refine .inr ?_
      change (Material.ready _ b _ mesh scene _).material.pass = _ ∧
        ((Material.ready _ b _ mesh scene _).material.compiled = _ ∨ _)
      rw [same]
      exact ⟨rfl, .inl rfl⟩
    | bind n mesh scene =>
      have same := w.material.samePasses_bind (w.targets n) mesh scene
      exact .inr ⟨same.pass, .inl same.compiled⟩
    | drift h => exact .inr ⟨rfl, .inl rfl⟩

/-- The current pass was begun by a build that came to a lost entry, and what is compiled was there
before. -/
def Stalled (b : Backend σ) (drift : σ → σ → Prop) (w₀ w : Studio σ) : Prop :=
  ∃ w₁ x, ReflTransGen (Handling b drift) w₀ w₁ ∧
    w₁.material.build.1 = .error (.graph (.missingBlock x)) ∧
    ReflTransGen (Handling b drift) w₁.build w ∧
    w.material.pass = w₁.build.material.pass ∧ w.material.compiled = w₁.material.compiled

theorem current_or_stalled {w₀ : Studio σ} (start : w₀.Opened)
    (h : ReflTransGen (Handling b drift) w₀ w) :
    (∀ c, w.material.compiled = some c → c.pass = w.material.pass) ∨ Stalled b drift w₀ w := by
  induction h with
  | refl =>
    cases start
    exact .inl nofun
  | @tail w w' hsteps hstep ih =>
    have ordered := (Ordered.of_opened start).run hsteps
    rcases hstep.passes with rfl | ⟨pass, compiled⟩
    · rcases build_outcomes ordered.graph with ⟨fault, same⟩ | ⟨next, turnout⟩
      · have unchanged : w.material.build.2 = w.material := congrArg Prod.snd same
        rcases ih with current | ⟨w₁, x, run, lost, onward, pass, compiled⟩
        · refine .inl ?_
          change ∀ c, w.material.build.2.compiled = some c → c.pass = w.material.build.2.pass
          rwa [unchanged]
        · refine .inr ⟨w₁, x, run, lost, onward.tail hstep, ?_, ?_⟩
          · exact (congrArg Material.pass unchanged).trans pass
          · exact (congrArg Material.compiled unchanged).trans compiled
      · cases turnout with
        | faulty fault _ _ none => exact .inl fun c hc => nomatch none.symm.trans hc
        | stalled x _ lost kept => exact .inr ⟨w, x, hsteps, lost, .refl, rfl, kept⟩
        | finished c _ _ compiled pass =>
          refine .inl fun c' hc' => ?_
          cases compiled.symm.trans hc'
          exact pass.trans next.symm
    · rcases compiled with same | none
      · rcases ih with current | ⟨w₁, x, run, lost, onward, pass', compiled'⟩
        · exact .inl fun c hc => (current c (same ▸ hc)).trans pass.symm
        · exact .inr ⟨w₁, x, run, lost, onward.tail hstep, pass.trans pass', same.trans compiled'⟩
      · exact .inl fun c hc => nomatch none.symm.trans hc

/-- Nothing yet, with the place where programs are to be compiled. -/
def empty (s : σ) : Studio σ :=
  { material := { name := "tint", graph := { nextId := 1 } }, backend := s }

theorem opened_empty (s : σ) : (empty s).Opened := .new "tint" {} 1 s

def tinted (s : σ) : Studio σ := { material := .tint, backend := s }

theorem run_edits (w : Studio σ) (h : ReflTransGen Material.Edit m m') :
    ReflTransGen (Move b drift) { w with material := m, edited := true }
      { w with material := m', edited := true } := by
  induction h with
  | refl => exact .refl
  | tail _ hedit ih => exact ih.tail (.edit hedit)

theorem edits_connectAll (h : ReflTransGen Material.Edit m m')
    (pairs : List (SocketRef × SocketRef)) (g : Graph) (made : m'.graph.connectAll pairs = .ok g) :
    ReflTransGen Material.Edit m { m' with graph := g } :=
  Graph.connectAll_induction (P := fun graph => ReflTransGen Material.Edit m { m' with graph })
    (fun h made => h.tail (.connect made)) h made

theorem edits_loose (s : σ) : ReflTransGen Material.Edit (empty s).material .loose := by
  have start :
      ReflTransGen Material.Edit (empty s).material { name := "tint", mode := .particle } :=
    .single (.tune rfl (le_refl _) rfl ⟨rfl, rfl, rfl⟩)
  have color := start.tail (.addBlock _ "color" (.input (.ofAttribute "color" .color4)) nofun)
  have blocks := color.tail (.addBlock _ "out" (.fragmentOutput {}) nofun)
  exact blocks.tail (.addRoot (show Material.addRoot _ ⟨2⟩ = .ok .loose from rfl))

theorem run_tinted (s : σ) : ReflTransGen (Move b drift) (empty s) (tinted s) :=
  run_edits (empty s) ((edits_loose s).tail (.connect connect_loose))

theorem run_drawn {drift : Scripted → Scripted → Prop} :
    ReflTransGen (Move .scripted drift) (empty ({} : Scripted)) drawn :=
  ((run_tinted ({} : Scripted)).tail (.build _)).tail (.ready _ 0 {} {})

/-- The particle built a second time, and drawn again. -/
def redrawn : Studio Scripted := drawn.build.ready .scripted 0 {} {}

/-- A particle with a second output. -/
def twofold : Material := Material.tint.addBlock "spare" (.fragmentOutput {})

/-- The second output is fed by an exit without an entry. It is no root, so that the particle can be
built and drawn. -/
def spare : Studio Scripted :=
  ({ material := twofold.stray ⟨3⟩, backend := {} } : Studio Scripted).build.ready .scripted 0 {} {}

/-- The second output becomes a root, and a build comes to a halt at the exit. -/
def halted : Studio Scripted :=
  let rooted := { spare.material with roots := spare.material.roots.add .fragment ⟨3⟩ }
  ({ spare with material := rooted, edited := true } : Studio Scripted).build

end Studio

end ShaderGraph
