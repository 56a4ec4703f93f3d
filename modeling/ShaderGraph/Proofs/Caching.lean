import ShaderGraph.Proofs.Materials
import ShaderGraph.Proofs.Splicing

/-!
# Programs that are found again

Programs are kept by pass and signature and shared by everything that is drawn with a material. They
can be, because the signature of a define set decides its program
(`DefineSet.signature_decides_program`). This module follows a material and its targets through
builds, edits and checks for readiness, in any order (`Studio.Reached`), and shows that a program
that is found for the current pass is the one that splicing everything in afresh would give, whoever
asks for it and for whatever defines of that signature (`Studio.cached_program_is_fresh`).
-/

namespace ShaderGraph

variable (c : CompiledGraph) (g : Graph)

open List Nat

/-! ## 1. What a signature decides -/

/-- The signature decides the texts that are spliced in and the program around them. -/
theorem CompiledGraph.program_of_signature {d d' : DefineSet} (hd : d.Plain) (hd' : d'.Plain)
    (h : d.signature = d'.signature) :
    c.program g d (c.spliceAll g d) = c.program g d' (c.spliceAll g d') := by
  have agrees := DefineSet.agrees_of_signature hd hd' h
  rw [c.spliceAll_congr g (.of_agrees agrees)]
  exact c.program_congr g agrees h (.refl _)

/-- Two define sets of one signature, whose names are single words, are told apart by no condition,
by no count and by no program: what they may differ in are flags that are off. -/
theorem DefineSet.signature_decides_program {d d' : DefineSet} (hd : d.Plain) (hd' : d'.Plain)
    (h : d.signature = d'.signature) :
    (∀ c : Condition, c.holds d = c.holds d') ∧
    (∀ name, d.count name = d'.count name ∧ d.isDefined name = d'.isDefined name) ∧
    ∀ m : Material, m.programSource d = m.programSource d' := by
  have agrees := agrees_of_signature hd hd' h
  refine ⟨agrees.holds, fun name => ⟨agrees.count name, agrees.isDefined name⟩, fun m => ?_⟩
  unfold Material.programSource
  cases m.compiled with
  | none => rfl
  | some c => simp only [c.program_of_signature m.graph hd hd' h]

/-- Fog that is off and fog that nobody mentions, beside a flag and a negative count. -/
theorem DefineSet.dry_signature_decides_program :
    let d : DefineSet := { values :=
      [("FOG", .flag false), ("NORMAL", .flag true), ("OFFSET", .count (-2))] }
    let d' : DefineSet := { values := [("NORMAL", .flag true), ("OFFSET", .count (-2))] }
    d.Plain ∧ d'.Plain ∧ d.signature = d'.signature ∧ d.count "OFFSET" = d'.count "OFFSET" ∧
      (∃ source, Material.tint.build.2.programSource d = .ok source) ∧
      Material.tint.build.2.programSource d = Material.tint.build.2.programSource d' := by
  intro d d'
  have plain : d.Plain := ⟨by decide, by decide⟩
  have plain' : d'.Plain := ⟨by decide, by decide⟩
  have same : d.signature = d'.signature := by decide
  obtain ⟨-, counts, programs⟩ := signature_decides_program plain plain' same
  have written : (Material.tint.build.2.programSource d).toOption.isSome = true := by
    decide +kernel
  refine ⟨plain, plain', same, (counts "OFFSET").1, ?_, programs _⟩
  cases hs : Material.tint.build.2.programSource d with
  | ok source => exact ⟨source, rfl⟩
  | error e => rw [hs] at written; cases written

/-- The program is that of some defines of its signature, with everything spliced in afresh. -/
def ProgramRecord.Fresh (r : ProgramRecord) (c : CompiledGraph) (g : Graph) : Prop :=
  ∃ d : DefineSet, d.Plain ∧ d.signature = r.program.signature ∧
    r.source = c.program g d (c.spliceAll g d)

/-- Every define set of the signature has the program. -/
theorem ProgramRecord.Fresh.source_eq {r : ProgramRecord} {c : CompiledGraph} {g : Graph}
    (h : r.Fresh c g) {d : DefineSet} (hd : d.Plain) (hs : d.signature = r.program.signature) :
    c.program g d (c.spliceAll g d) = r.source := by
  obtain ⟨d', hd', hs', source⟩ := h
  exact (c.program_of_signature g hd hd' (hs.trans hs'.symm)).trans source.symm

/-! ## 2. Trials -/

/-- A cache to which programs of a pass were added. If the texts they were made of are `good`, the
programs are fresh. -/
def ProgramCache.Grows (c : CompiledGraph) (g : Graph) (good : Prop) (cache cache' : ProgramCache) :
    Prop :=
  ∀ r ∈ cache'.records,
    (∃ r₀ ∈ cache.records, r₀.program = r.program ∧ r₀.source = r.source) ∨
      r.program.pass = c.pass ∧ (good → r.Fresh c g)

namespace ProgramCache.Grows

variable {c : CompiledGraph} {g : Graph} {good : Prop} {cache cache' cache'' : ProgramCache}

theorem refl (cache : ProgramCache) : Grows c g good cache cache :=
  fun r hr => .inl ⟨r, hr, rfl, rfl⟩

theorem trans (h : Grows c g good cache cache') (h' : Grows c g good cache' cache'') :
    Grows c g good cache cache'' := by
  intro r hr
  rcases h' r hr with ⟨r', hr', program, source⟩ | added
  · rcases h r' hr' with ⟨r₀, hr₀, program', source'⟩ | ⟨pass, fresh⟩
    · exact .inl ⟨r₀, hr₀, program'.trans program, source'.trans source⟩
    · refine .inr ⟨program ▸ pass, fun hg => ?_⟩
      obtain ⟨d, hd, signature, text⟩ := fresh hg
      exact ⟨d, hd, program ▸ signature, source ▸ text⟩
  · exact .inr added

theorem markReported (cache : ProgramCache) (p : Installed) :
    Grows c g good cache (cache.markReported p) := by
  intro r hr
  obtain ⟨r₀, hr₀, rfl⟩ := mem_map.mp hr
  refine .inl ⟨r₀, hr₀, ?_⟩
  split <;> exact ⟨rfl, rfl⟩

end ProgramCache.Grows

namespace Trial

variable {σ : Type} {b : Backend σ} {c : CompiledGraph} {g : Graph} {good : Prop} {d : DefineSet}
  {fills : StageFills}

open ProgramCache

theorem grows_obtain (hd : d.Tidy) (same : good → fills.Same (c.spliceAll g d)) (t : Trial σ) :
    Grows c g good t.cache (t.obtain b c g d fills).2.cache := by
  unfold obtain
  split
  · exact .refl _
  · intro r hr
    rcases mem_append.mp hr with hr | hr
    · exact .inl ⟨r, hr, rfl, rfl⟩
    · obtain rfl := mem_singleton.mp hr
      refine .inr ⟨rfl, fun hg => ⟨d, hd.plain, rfl, ?_⟩⟩
      exact c.program_congr g ⟨fun _ => rfl, fun _ => rfl⟩ rfl (same hg)

theorem grows_report (t : Trial σ) (program : Installed) (message : String) :
    Grows c g good t.cache (t.report program message).cache := by
  unfold report
  split
  · exact .refl _
  · split
    · exact .refl _
    · exact .markReported _ _

/-- Behind the first program everything is spliced in afresh. -/
theorem grows_attempt {steps : List (Nat × List String)} (hd : d.Tidy)
    (words : ∀ s ∈ steps, ∀ n ∈ s.2, IsWord n) (same : good → fills.Same (c.spliceAll g d))
    (t : Trial σ) : Grows c g good t.cache (t.attempt b c g steps d fills).2.cache := by
  induction steps generalizing d fills t with
  | nil =>
    unfold attempt
    dsimp only
    split
    · exact (grows_obtain hd same t).trans (grows_report _ _ _)
    · exact grows_obtain hd same t
  | cons s rest ih =>
    rw [forall_mem_cons] at words
    unfold attempt
    dsimp only
    split
    · refine .trans ?_ (ih (hd.switchOff words.1) words.2 (fun _ => .refl _) _)
      exact (grows_obtain hd same t).trans (grows_report _ _ _)
    · exact grows_obtain hd same t

end Trial

theorem CompiledGraph.words_fallbackChain (d : DefineSet) :
    ∀ s ∈ (c.fallbackChain g d).steps, ∀ n ∈ s.2, IsWord n := by
  have add : ∀ (chain : FallbackChain) (rank : Nat) {name : String}, IsWord name →
      (∀ s ∈ chain.steps, ∀ n ∈ s.2, IsWord n) →
        ∀ s ∈ (chain.add rank name).steps, ∀ n ∈ s.2, IsWord n := by
    intro chain rank name hw words
    have known : ∀ n ∈ (Keyed.get? rank chain.steps).getD [], IsWord n := by
      cases h : Keyed.get? rank chain.steps with
      | none => exact fun n hn => nomatch hn
      | some names => exact words _ (Keyed.mem_of_get? h)
    intro s hs n hn
    rcases Keyed.mem_insert hs with rfl | hs
    · split at hn
      · exact known n hn
      · rcases mem_append.mp hn with hn | hn
        · exact known n hn
        · exact mem_singleton.mp hn ▸ hw
    · exact words s hs n hn
  have block : ∀ (k : Kind) (chain : FallbackChain), (∀ s ∈ chain.steps, ∀ n ∈ s.2, IsWord n) →
      ∀ s ∈ (k.fallbacks d chain).steps, ∀ n ∈ s.2, IsWord n := by
    intro k chain words
    cases k with
    | bones b =>
      simp only [Kind.fallbacks, BonesBlock.fallbacks]
      split
      · exact add chain 0 (by decide) words
      · exact words
    | fog f =>
      simp only [Kind.fallbacks, FogBlock.fallbacks]
      split
      · exact add chain 1 (by decide) words
      · exact words
    | _ => exact words
  have all : ∀ (blocks : List Block) (chain : FallbackChain),
      (∀ s ∈ chain.steps, ∀ n ∈ s.2, IsWord n) →
        ∀ s ∈ (blocks.foldl (fun chain b => b.kind.fallbacks d chain) chain).steps,
          ∀ n ∈ s.2, IsWord n := by
    intro blocks
    induction blocks with
    | nil => exact fun _ words => words
    | cons b rest ih => exact fun chain words => ih _ (block b.kind chain words)
  exact all _ {} fun s hs => nomatch hs

/-! ## 3. One check for readiness -/

namespace DrawTarget

variable {t t' t'' : DrawTarget} {c : CompiledGraph} {g : Graph}

theorem Spliced.refreshAll (h : t.Spliced c g) : (t.refreshAll c g).Spliced c g :=
  .of_same (refreshed_refreshAll t c g).all h.same_refreshAll

/-- Targets that differ in their programs and in counts only. -/
structure Akin (t t' : DrawTarget) : Prop where
  pass : t'.pass = t.pass
  fills : t'.fills = t.fills
  spliced : t'.spliced = t.spliced
  values : t'.defines.values = t.defines.values
  dirty : t'.defines.dirty = t.defines.dirty

theorem Akin.trans (h : Akin t t') (h' : Akin t' t'') : Akin t t'' where
  pass := h'.pass.trans h.pass
  fills := h'.fills.trans h.fills
  spliced := h'.spliced.trans h.spliced
  values := h'.values.trans h.values
  dirty := h'.dirty.trans h.dirty

theorem Akin.keeps_spliced (h : Akin t t') (hs : t.Spliced c g) : t'.Spliced c g := by
  refine hs.of_tracks ⟨fun hd => hd.of_values h.values, fun clean => h.dirty ▸ clean, ?_⟩ h.fills
    h.spliced
  intro _ n _
  rw [DefineSet.get?, DefineSet.get?, h.values]

theorem akin_adopt (t : DrawTarget) (hotSwap kept : Bool) (program : Installed)
    (status : ProgramStatus) : t.Akin (t.adopt hotSwap kept program status) := by
  cases status with
  | pending =>
    simp only [adopt]
    split <;> exact ⟨rfl, rfl, rfl, rfl, rfl⟩
  | failed message =>
    simp only [adopt]
    split <;> exact ⟨rfl, rfl, rfl, rfl, rfl⟩
  | ready => exact ⟨rfl, rfl, rfl, rfl, rfl⟩

theorem pass_moveTo (t : DrawTarget) (pass : PassId) : (t.moveTo pass).pass = pass := by
  unfold moveTo
  split
  · assumption
  · rfl

theorem values_moveTo (t : DrawTarget) (pass : PassId) :
    (t.moveTo pass).defines.values = t.defines.values := by
  unfold moveTo
  split <;> rfl

end DrawTarget

namespace Material

variable {σ : Type} {m : Material} {c : CompiledGraph} {t : DrawTarget} {good : Prop}

theorem akin_awaitPending (b : Backend σ) (t : DrawTarget) (s : σ) :
    t.Akin (awaitPending b t s).1 := by
  unfold awaitPending
  dsimp only
  split
  · exact ⟨rfl, rfl, rfl, rfl, rfl⟩
  · split <;> exact ⟨rfl, rfl, rfl, rfl, rfl⟩

/-- What a check for readiness does to a material and to a target of the pass `c`: it adds programs
of the pass, and the target comes to belong to the pass. Where what the target has spliced in is
`good`, it stays right, and so are the programs. -/
structure Served (m : Material) (c : CompiledGraph) (good : Prop) (r : Readiness σ) : Prop where
  material : r.material = { m with cache := r.material.cache }
  cache : ProgramCache.Grows c m.graph good m.cache r.material.cache
  pass : r.target.pass = c.pass
  tidy : r.target.defines.Tidy
  spliced : good → r.target.Spliced c m.graph

theorem served_specialize (b : Backend σ) (hp : t.pass = c.pass) (hd : t.defines.Tidy)
    (hs : good → t.Spliced c m.graph) (s : σ) : Served m c good (m.specialize b c t s) := by
  have refreshed := t.refreshed_refreshAll c m.graph
  have tidy : (t.refreshAll c m.graph).defines.Tidy := by
    rw [refreshed.defines]
    exact hd.of_values rfl
  have akin : (t.refreshAll c m.graph).Akin (m.specialize b c t s).target := by
    refine .trans ?_ (DrawTarget.akin_adopt _ _ _ _ _)
    exact ⟨rfl, rfl, rfl, rfl, rfl⟩
  refine ⟨rfl, ?_, ?_, tidy.of_values akin.values, fun h => ?_⟩
  · exact Trial.grows_attempt tidy (c.words_fallbackChain _ _) (fun h => (hs h).same_refreshAll) _
  · rw [akin.pass, refreshed.pass]
    exact hp
  · exact akin.keeps_spliced (hs h).refreshAll

theorem served_ready (good : Prop) (b : Backend σ) (hc : m.compiled = some c)
    (ok : c.isSuccessful = true) (named : ∀ x ∈ c.roster.blocks .defines, m.graph.NamedAt x)
    (hd : t.defines.Tidy) (hs : good → t.pass = c.pass → t.Spliced c m.graph) (mesh : Mesh)
    (scene : Scene) (s : σ) : Served m c good (m.ready b t mesh scene s) := by
  have pass : (t.moveTo c.pass).pass = c.pass := t.pass_moveTo c.pass
  have tidy : (t.moveTo c.pass).defines.Tidy := hd.of_values (t.values_moveTo c.pass)
  have spliced : good → (t.moveTo c.pass).Spliced c m.graph := fun h =>
    DrawTarget.spliced_moveTo (hs h)
  unfold ready
  simp only [hc, ok, Bool.not_true, Bool.false_eq_true, if_false]
  generalize t.moveTo c.pass = t at pass tidy spliced ⊢
  split
  · exact ⟨rfl, .refl _, pass, tidy, spliced⟩
  · have tracks := CompiledGraph.tracks_prepareDefines named mesh scene t.defines
    generalize hprepared : ({ t with defines := c.prepareDefines m.graph mesh scene t.defines } :
      DrawTarget) = prepared
    have pass' : prepared.pass = c.pass := hprepared ▸ pass
    have tidy' : prepared.defines.Tidy := hprepared ▸ tracks.tidy tidy
    have spliced' : good → prepared.Spliced c m.graph := fun h =>
      hprepared ▸ (spliced h).of_tracks tracks rfl rfl
    split
    · have served := served_specialize b pass' tidy' spliced' s
      exact ⟨served.material, served.cache, served.pass, served.tidy, served.spliced⟩
    · have akin := akin_awaitPending b prepared s
      exact ⟨rfl, .refl _, akin.pass.trans pass', tidy'.of_values akin.values,
        fun h => akin.keeps_spliced (spliced' h)⟩

/-- A build that comes to a pass gives it a number of its own. It leaves the programs that are kept,
or drops those of earlier passes. -/
theorem build_cases (m : Material) :
    m.build.2 = m ∧ m.build.1.toOption = none ∨
      m.build.2.pass = m.pass.next ∧ m.build.2.cache.records ⊆ m.cache.records ∧
        ((m.build.2.compiled = none ∨ m.build.2.compiled = m.compiled) ∧
            m.build.2.cache = m.cache ∧ m.build.1.toOption = none ∨
          ∃ c, m.build = (.ok c, m.build.2) ∧ m.build.2.compiled = some c ∧
            c.pass = m.pass.next) := by
  unfold build
  split
  · exact .inl ⟨rfl, rfl⟩
  · split
    · exact .inl ⟨rfl, rfl⟩
    · rw [runPass_eq]
      dsimp only
      split
      · exact .inr ⟨rfl, List.Subset.refl _, .inl ⟨.inl rfl, rfl, rfl⟩⟩
      · split
        · exact .inr ⟨rfl, List.Subset.refl _, .inl ⟨.inr rfl, rfl, rfl⟩⟩
        · split
          · exact .inr ⟨rfl, List.Subset.refl _, .inl ⟨.inr rfl, rfl, rfl⟩⟩
          · rename_i c hc
            have pass : c.pass = m.pass.next := by
              obtain ⟨vertex, -, hc⟩ := bind_eq_ok_iff.mp hc
              obtain ⟨fragment, -, hc⟩ := bind_eq_ok_iff.mp hc
              rw [← Except.ok.inj hc]
            refine .inr ⟨rfl, ?_, .inr ⟨c, rfl, rfl, pass⟩⟩
            unfold store
            split
            · exact fun r hr => mem_of_mem_filter hr
            · exact List.Subset.refl _

theorem compiled_of_build {m m' : Material} {c : CompiledGraph} (h : m.build = (.ok c, m')) :
    m'.compiled = some c ∧ m'.cache.records ⊆ m.cache.records := by
  rcases m.build_cases with ⟨-, failed⟩ | ⟨-, kept, ⟨-, -, failed⟩ | ⟨c', built, compiled, -⟩⟩
  · rw [h] at failed
    cases failed
  · rw [h] at failed
    cases failed
  · rw [h] at built kept compiled
    cases built
    exact ⟨compiled, kept⟩

end Material

/-! ## 4. Runs -/

/-- A material, the things that are drawn with it and the place where its programs are compiled. -/
structure Studio (σ : Type) where
  material : Material
  targets : Nat → DrawTarget := fun _ => {}
  backend : σ
  /-- Whether the material was edited since the last build that gave a result. -/
  edited : Bool := true

namespace Studio

variable {σ : Type} {b : Backend σ} {w : Studio σ}

def builds (m : Material) : Bool := m.build.1.toOption.isSome

def build (w : Studio σ) : Studio σ :=
  { w with material := w.material.build.2, edited := w.edited && !builds w.material }

/-- Brings the target of a number up to date. -/
def ready (w : Studio σ) (b : Backend σ) (n : Nat) (mesh : Mesh) (scene : Scene) : Studio σ :=
  let r := w.material.ready b (w.targets n) mesh scene w.backend
  { w with
    material := r.material
    targets := fun k => if k = n then r.target else w.targets k
    backend := r.backend }

/-- The runs with one material. An edit may change anything but the result of the last pass, the
number of the pass and the programs; readiness is not checked before a build has taken it up. The
place where programs are compiled may come to its verdicts at any time. -/
inductive Reached (b : Backend σ) : Studio σ → Prop
  | start (name : String) (options : Options) (s : σ) :
      Reached b { material := { name, options }, backend := s }
  | edit {w : Studio σ} {m : Material} : Reached b w → m.pass = w.material.pass →
      m.compiled = w.material.compiled → m.cache = w.material.cache →
      Reached b { w with material := m, edited := true }
  | dispose {w : Studio σ} : Reached b w →
      Reached b { w with material := w.material.dispose, edited := true }
  | build {w : Studio σ} : Reached b w → Reached b w.build
  | ready {w : Studio σ} (n : Nat) (mesh : Mesh) (scene : Scene) : Reached b w → w.edited = false →
      Reached b (w.ready b n mesh scene)
  | verdict {w : Studio σ} (s : σ) : Reached b w → Reached b { w with backend := s }

/-- What holds at every moment of a run. What is said of the current pass holds from a build that
gave a result until the next edit. -/
structure Sound (w : Studio σ) : Prop where
  tidy : ∀ n, (w.targets n).defines.Tidy
  behind : ∀ n, (w.targets n).pass.index ≤ w.material.pass.index
  kept : ∀ r ∈ w.material.cache.records, r.program.pass.index ≤ w.material.pass.index
  built : ∀ c, w.material.compiled = some c → c.pass.index ≤ w.material.pass.index
  current : ∀ r ∈ w.material.cache.records, r.program.pass = w.material.pass →
    ∃ c, w.material.compiled = some c ∧ c.isSuccessful = true ∧ c.pass = w.material.pass
  named : w.edited = false → ∀ c, w.material.compiled = some c →
    ∀ x ∈ c.roster.blocks .defines, w.material.graph.NamedAt x
  spliced : w.edited = false → ∀ c, w.material.compiled = some c → c.pass = w.material.pass →
    ∀ n, (w.targets n).pass = c.pass → (w.targets n).Spliced c w.material.graph
  fresh : w.edited = false → ∀ c, w.material.compiled = some c → c.pass = w.material.pass →
    ∀ r ∈ w.material.cache.records, r.program.pass = c.pass → r.Fresh c w.material.graph

namespace Sound

theorem build (hw : w.Sound) : w.build.Sound := by
  obtain ⟨same, failed⟩ | ⟨next, records, outcome⟩ := w.material.build_cases
  · have unchanged : w.build = w := by
      simp [Studio.build, builds, same, failed]
    rw [unchanged]
    exact hw
  · have later : w.build.material.pass.index = w.material.pass.index + 1 := by
      change w.material.build.2.pass.index = _
      rw [next]
      rfl
    have none_new : ∀ r ∈ w.build.material.cache.records,
        r.program.pass ≠ w.build.material.pass := by
      intro r hr heq
      have := hw.kept r (records hr)
      rw [heq, later] at this
      omega
    have no_target : ∀ n, (w.build.targets n).pass ≠ w.build.material.pass := by
      intro n heq
      have := hw.behind n
      rw [show (w.targets n).pass = w.build.material.pass from heq, later] at this
      omega
    have passes : ∀ c, w.build.material.compiled = some c →
        c.pass.index ≤ w.build.material.pass.index := by
      intro c hc
      rcases outcome with ⟨gone | same, -⟩ | ⟨c', -, hc', hpass⟩
      · cases gone.symm.trans hc
      · have := hw.built c (same ▸ hc)
        omega
      · cases hc'.symm.trans hc
        rw [hpass, later]
        exact le_refl _
    refine ⟨hw.tidy, fun n => ?_, fun r hr => ?_, passes, ?_, ?_, ?_, ?_⟩
    · have := hw.behind n
      rw [later]
      exact le_succ_of_le this
    · have := hw.kept r (records hr)
      rw [later]
      exact le_succ_of_le this
    · exact fun r hr heq => absurd heq (none_new r hr)
    · intro edited c hc x hx
      rcases outcome with ⟨gone | same, failed⟩ | ⟨c', hbuild, hc', -⟩
      · cases gone.symm.trans hc
      · have unedited : w.edited = false := by
          simpa [Studio.build, builds, failed] using edited
        exact w.material.keepsNames_build x (hw.named unedited c (same ▸ hc) x hx)
      · cases hc'.symm.trans hc
        exact Material.namedAt_of_build hbuild hx
    · exact fun _ c _ hpass n hn => absurd (hn.trans hpass) (no_target n)
    · exact fun _ c _ hpass r hr heq => absurd (heq.trans hpass) (none_new r hr)

/-- A check for readiness changes nothing unless the material was built without problems. -/
theorem ready (hw : w.Sound) (built : w.edited = false) (b : Backend σ) (n : Nat) (mesh : Mesh)
    (scene : Scene) : (w.ready b n mesh scene).Sound := by
  have idle : ∀ s : σ, ({ w with
      targets := fun k => if k = n then w.targets n else w.targets k, backend := s } :
        Studio σ).Sound := by
    intro s
    have same : (fun k => if k = n then w.targets n else w.targets k) = w.targets := by
      funext k
      split
      · rename_i h
        rw [h]
      · rfl
    rw [same]
    exact ⟨hw.tidy, hw.behind, hw.kept, hw.built, hw.current, hw.named, hw.spliced, hw.fresh⟩
  cases hc : w.material.compiled with
  | none =>
    unfold Studio.ready Material.ready
    simp only [hc]
    exact idle _
  | some c =>
    cases ok : c.isSuccessful with
    | false =>
      unfold Studio.ready Material.ready
      simp only [hc, ok, Bool.not_false, if_true]
      exact idle _
    | true =>
      have served := Material.served_ready (c.pass = w.material.pass) b hc ok
        (hw.named built c hc) (hw.tidy n) (fun hp => hw.spliced built c hc hp n) mesh scene
        w.backend
      generalize hr : w.material.ready b (w.targets n) mesh scene w.backend = r at served
      have eq : w.ready b n mesh scene =
          { w with
            material := { w.material with cache := r.material.cache }
            targets := fun k => if k = n then r.target else w.targets k
            backend := r.backend } := by
        simp only [Studio.ready, hr, ← served.material]
      rw [eq]
      have reaches := hw.built c hc
      refine ⟨fun k => ?_, fun k => ?_, ?_, hw.built, ?_, hw.named, ?_, ?_⟩
      · dsimp only
        split
        · exact served.tidy
        · exact hw.tidy k
      · dsimp only
        split
        · exact served.pass ▸ reaches
        · exact hw.behind k
      · intro p hp
        rcases served.cache p hp with ⟨p₀, hp₀, program, -⟩ | ⟨pass, -⟩
        · exact program ▸ hw.kept p₀ hp₀
        · exact pass ▸ reaches
      · intro p hp hpass
        rcases served.cache p hp with ⟨p₀, hp₀, program, -⟩ | ⟨pass, -⟩
        · exact hw.current p₀ hp₀ (program ▸ hpass)
        · exact ⟨c, hc, ok, pass.symm.trans hpass⟩
      · intro edited c' hc' hpass k hk
        cases hc.symm.trans hc'
        dsimp only at hk ⊢
        split at hk
        · rename_i h
          rw [if_pos h]
          exact served.spliced hpass
        · rename_i h
          rw [if_neg h]
          exact hw.spliced edited c hc hpass k hk
      · intro edited c' hc' hpass p hp heq
        cases hc.symm.trans hc'
        rcases served.cache p hp with ⟨p₀, hp₀, program, source⟩ | ⟨-, fresh⟩
        · obtain ⟨d, hd, signature, text⟩ := hw.fresh edited c hc hpass p₀ hp₀ (program ▸ heq)
          exact ⟨d, hd, program ▸ signature, source ▸ text⟩
        · exact fresh hpass

end Sound

theorem Reached.sound (hw : w.Reached b) : w.Sound := by
  induction hw with
  | start name options s =>
    have nothing : ∀ c : CompiledGraph, none ≠ some c := fun c => (Option.some_ne_none c).symm
    exact ⟨fun _ => ⟨.nil, fun _ he => absurd he not_mem_nil⟩, fun _ => le_refl _,
      fun _ hr => absurd hr not_mem_nil, fun c hc => absurd hc (nothing c),
      fun _ hr => absurd hr not_mem_nil, fun _ c hc => absurd hc (nothing c),
      fun _ c hc => absurd hc (nothing c), fun _ c hc => absurd hc (nothing c)⟩
  | edit _ pass compiled cache ih =>
    have edited : true ≠ false := by decide
    refine ⟨ih.tidy, ?_, ?_, ?_, ?_, fun h => absurd h edited, fun h => absurd h edited,
      fun h => absurd h edited⟩
    · exact pass ▸ ih.behind
    · simp only [pass, cache]
      exact ih.kept
    · simp only [pass, compiled]
      exact ih.built
    · simp only [pass, compiled, cache]
      exact ih.current
  | dispose _ ih =>
    have edited : true ≠ false := by decide
    exact ⟨ih.tidy, ih.behind, fun _ hr => absurd hr not_mem_nil, fun _ hc => (nomatch hc),
      fun _ hr => absurd hr not_mem_nil, fun h => absurd h edited, fun h => absurd h edited,
      fun h => absurd h edited⟩
  | build _ ih => exact ih.build
  | ready n mesh scene _ built ih => exact ih.ready built _ n mesh scene
  | verdict s _ ih =>
    exact ⟨ih.tidy, ih.behind, ih.kept, ih.built, ih.current, ih.named, ih.spliced, ih.fresh⟩

/-- A program that is kept for the current pass is, for every define set of its signature, what
splicing everything in afresh gives. -/
theorem cached_program_is_fresh (hw : w.Reached b) (built : w.edited = false)
    {r : ProgramRecord} (hr : r ∈ w.material.cache.records)
    (current : r.program.pass = w.material.pass) {d : DefineSet} (hd : d.Plain)
    (hs : d.signature = r.program.signature) :
    w.material.programSource d = .ok r.source := by
  have sound := hw.sound
  obtain ⟨c, hc, ok, pass⟩ := sound.current r hr current
  have fresh := sound.fresh built c hc pass r hr (current.trans pass.symm)
  have checked : c.check = .ok () := if_pos ok
  unfold Material.programSource
  simp only [hc, checked]
  exact congrArg Except.ok (fresh.source_eq hd hs)

/-- A particle in the color of an attribute, built and drawn once. -/
def drawn : Studio Scripted :=
  ({ material := .tint, backend := {} } : Studio Scripted).build.ready .scripted 0 {} {}

theorem reached_drawn : Reached .scripted drawn := by
  have start : Reached .scripted ({ material := .tint, backend := {} } : Studio Scripted) :=
    .edit (m := .tint) (.start "tint" {} ({} : Scripted)) rfl rfl rfl
  exact .ready 0 {} {} (.build start) (by decide +kernel)

/-- The particle is drawn on a second target, and again on the first one, now with a mesh that has
colors. -/
def recolored : Studio Scripted :=
  (drawn.ready .scripted 1 {} {}).ready .scripted 0 { colors := true } {}

/-- The second target has the program that was made for the first one, which has another one now. -/
theorem recolored_programs_are_fresh :
    recolored.Reached .scripted ∧ recolored.edited = false ∧
      ∃ r ∈ recolored.material.cache.records, ∃ r' ∈ recolored.material.cache.records,
        r.program.pass = recolored.material.pass ∧ r'.program.pass = recolored.material.pass ∧
        (recolored.targets 0).defines.signature = r.program.signature ∧
        (recolored.targets 1).defines.signature = r'.program.signature ∧
        r.source.vertex ≠ r'.source.vertex ∧
        recolored.material.programSource (recolored.targets 0).defines = .ok r.source ∧
        recolored.material.programSource (recolored.targets 1).defines = .ok r'.source := by
  have built : recolored.edited = false := by decide +kernel
  have reached : recolored.Reached .scripted :=
    .ready 0 _ _ (.ready 1 _ _ reached_drawn (by decide +kernel)) (by decide +kernel)
  have found : (recolored.material.cache.records.any fun r =>
      recolored.material.cache.records.any fun r' =>
        r.program.pass = recolored.material.pass ∧ r'.program.pass = recolored.material.pass ∧
        (recolored.targets 0).defines.signature = r.program.signature ∧
        (recolored.targets 1).defines.signature = r'.program.signature ∧
        r.source.vertex ≠ r'.source.vertex) = true := by decide +kernel
  obtain ⟨r, hr, found⟩ := List.any_eq_true.mp found
  obtain ⟨r', hr', matching⟩ := List.any_eq_true.mp found
  obtain ⟨pass, pass', signature, signature', apart⟩ := of_decide_eq_true matching
  have plain := fun n => (reached.sound.tidy n).plain
  exact ⟨reached, built, r, hr, r', hr', pass, pass', signature, signature', apart,
    cached_program_is_fresh reached built hr pass (plain 0) signature,
    cached_program_is_fresh reached built hr' pass' (plain 1) signature'⟩

end Studio

end ShaderGraph
