import ShaderGraph.Proofs.Swapping

/-!
# The program for the defines

A target whose defines are clean is not looked at again, so being clean has to mean that the program
in use is the one for those defines. `DrawTarget.Settled` says so of one target, and
`Studio.no_stale_specialization` of every moment of a run in which no program fails, however long
programs take and whatever is drawn, edited or built in between.

Defines are written by `CompiledGraph.prepareDefines` alone. All that matters of it here is that it
gives fixed values to some names and leaves the others (`DefineSet.Assigns`).
-/

namespace ShaderGraph

open List Material DefineSet DrawTarget ProgramCache

/-! ## 1. Writing defines -/

namespace DefineSet

variable {f f' : DefineSet → DefineSet}

/-- A change of defines that gives some names a value and leaves the others, whatever they are. -/
structure Assigns (f : DefineSet → DefineSet) : Prop where
  sets : ∀ name, (∃ v, ∀ d, (f d).get? name = some v) ∨ ∀ d, (f d).get? name = d.get? name
  /-- What is clean afterwards is as it was. -/
  unchanged : ∀ d, (f d).isDirty = false → f d = d
  sorted : ∀ d, Keyed.Sorted d.values → Keyed.Sorted (f d).values

namespace Assigns

theorem id : Assigns fun d => d := ⟨fun _ => .inr fun _ => rfl, fun _ _ => rfl, fun _ h => h⟩

theorem comp (hf : Assigns f) (hf' : Assigns f') : Assigns fun d => f' (f d) where
  sets name := by
    rcases hf'.sets name with ⟨v, set⟩ | left'
    · exact .inl ⟨v, fun d => set (f d)⟩
    · rcases hf.sets name with ⟨v, set⟩ | left
      · exact .inl ⟨v, fun d => (left' (f d)).trans (set d)⟩
      · exact .inr fun d => (left' (f d)).trans (left d)
  unchanged d clean := by
    have second := hf'.unchanged (f d) clean
    rw [second] at clean
    exact second.trans (hf.unchanged d clean)
  sorted d h := hf'.sorted (f d) (hf.sorted d h)

theorem put (hf : Assigns f) (name : String) (v : DefineValue) (c : DefineCategory) :
    Assigns fun d => (f d).put name v c := by
  have one : Assigns fun d => d.put name v c := by
    refine ⟨fun other => ?_, fun d clean => ?_, fun d h => ?_⟩
    · by_cases same : name = other
      · exact .inl ⟨v, fun d => by rw [get?_put, if_pos same]⟩
      · exact .inr fun d => by rw [get?_put, if_neg same]
    · unfold DefineSet.put at clean ⊢
      split at clean
      · -- a new value leaves a mark
        cases clean
      · rename_i same
        rw [if_neg same]
    · unfold DefineSet.put
      split
      · exact h.insert name v
      · exact h
  exact hf.comp one

theorem foldl {α : Type} (step : DefineSet → α → DefineSet)
    (hstep : ∀ x, Assigns fun d => step d x) (xs : List α) (hf : Assigns f) :
    Assigns fun d => xs.foldl step (f d) := by
  induction xs generalizing f with
  | nil => exact hf
  | cons x rest ih => exact ih (hf.comp (hstep x))

end Assigns

theorem assigns_describe (mesh : Mesh) (scene : Scene) : Assigns (describe mesh scene) := by
  have coordinates : ∀ {f}, Assigns f → Assigns fun d => [1, 2, 3, 4, 5, 6].foldl (fun d i =>
      d.putFlag ("UV" ++ toString i) (i ≤ mesh.uvSets) .attributes) (f d) := fun hf =>
    hf.foldl _ (fun i => .put .id _ _ _) _
  unfold describe
  refine .put (.put (.put (.put (.put (.put
    (coordinates ?_) _ _ _) _ _ _) _ _ _) _ _ _) _ _ _) _ _ _
  exact .put (.put (.put .id _ _ _) _ _ _) _ _ _

end DefineSet

theorem Kind.assigns_prepareDefines (k : Kind) (mesh : Mesh) (scene : Scene) :
    DefineSet.Assigns (k.prepareDefines mesh scene) := by
  cases k with
  | fragmentOutput f =>
    change DefineSet.Assigns fun d => f.prepareDefines d
    unfold FragmentOutput.prepareDefines
    split
    · exact .id
    · exact .put (.put .id _ _ _) _ _ _
  | morphTargets m => exact .put (.put (.put (.put (.put .id _ _ _) _ _ _) _ _ _) _ _ _) _ _ _
  | bones b => exact .put (.put .id _ _ _) _ _ _
  | fog f => exact .put .id _ _ _
  | _ => exact .id

theorem CompiledGraph.assigns_prepareDefines (c : CompiledGraph) (g : Graph) (mesh : Mesh)
    (scene : Scene) : DefineSet.Assigns (c.prepareDefines g mesh scene) := by
  exact (assigns_describe mesh scene).foldl _
    (fun block => block.kind.assigns_prepareDefines mesh scene) _

theorem DefineSet.signature_congr {d d' : DefineSet} (h : d'.values = d.values) :
    d'.signature = d.signature := by
  rw [signature, signature, h]

/-! ## 2. Searches that come back with a working program -/

def ProgramStatus.Works (status : ProgramStatus) : Prop := ∀ message, status ≠ .failed message

/-- A place that knows the programs it was given, and gives them no answers but those `allowed`. -/
structure Backend.Answers {σ : Type} (b : Backend σ) (drift : σ → σ → Prop) (sane : σ → Prop)
    (known : σ → ProgramHandle → Prop) (allowed : ProgramStatus → Prop) : Prop extends
    b.Retains drift sane known where
  created : ∀ source s, sane s → known (b.create source s).2 (b.create source s).1
  answers : ∀ h s, sane s → known s h → allowed (b.poll h s).1

namespace ProgramCache

variable {σ : Type} {b : Backend σ} {drift : σ → σ → Prop} {sane : σ → Prop}
  {known : σ → ProgramHandle → Prop} {cache cache' : ProgramCache} {pass : PassId}
  {signature : String} {r : ProgramRecord}

/-- What was found before is found again. -/
def Retained (cache cache' : ProgramCache) : Prop := ∀ pass signature r,
  cache.find? pass signature = some r → cache'.find? pass signature = some r

/-- The place where programs are compiled knows every program that is kept. -/
structure Held (sane : σ → Prop) (known : σ → ProgramHandle → Prop) (cache : ProgramCache) (s : σ) :
    Prop where
  sane : sane s
  known : ∀ r ∈ cache.records, known s r.program.handle

theorem Held.keeps (hb : b.Retains drift sane known) (cache : ProgramCache) :
    b.Keeps (cache.Held sane known) where
  create source s h :=
    ⟨hb.keeps.create source s h.sane, fun r hr => hb.create source s _ h.sane (h.known r hr)⟩
  poll handle s h :=
    ⟨hb.keeps.poll handle s h.sane, fun r hr => hb.poll handle s _ h.sane (h.known r hr)⟩

theorem find?_add_self (missing : cache.find? pass signature = none) (hp : r.program.pass = pass)
    (hs : r.program.signature = signature) : (cache.add r).find? pass signature = some r := by
  unfold find? at missing ⊢
  rw [add, find?_append, missing]
  simp [hp, hs]

theorem retained_add (cache : ProgramCache) (new : ProgramRecord) :
    cache.Retained (cache.add new) := by
  intro pass signature r h
  unfold find? at h ⊢
  rw [add, find?_append, h]
  rfl

end ProgramCache

namespace Trial

variable {σ : Type} {b : Backend σ} {drift : σ → σ → Prop} {sane : σ → Prop}
  {known : σ → ProgramHandle → Prop} {allowed : ProgramStatus → Prop} {c : CompiledGraph}
  {g : Graph}
  {d : DefineSet} {fills : StageFills} {t : Trial σ}

/-- What a search for the program of a define set leaves when no program fails. -/
structure Obtained (sane : σ → Prop) (known : σ → ProgramHandle → Prop) (pass : PassId)
    (signature : String) (t : Trial σ) (program : Installed) (t' : Trial σ) : Prop where
  found : ∃ r, t'.cache.find? pass signature = some r ∧ r.program = program
  retained : t.cache.Retained t'.cache
  held : t'.cache.Held sane known t'.backend

theorem obtained_obtain (hb : b.Answers drift sane known allowed)
    (held : t.cache.Held sane known t.backend) (fills : StageFills) :
    Obtained sane known c.pass d.signature t (t.obtain b c g d fills).1
      (t.obtain b c g d fills).2 := by
  unfold obtain
  split
  · rename_i record h
    exact ⟨⟨record, h, rfl⟩, fun _ _ _ h => h, held⟩
  · rename_i missing
    have onward := (ProgramCache.Held.keeps hb.toRetains t.cache).create
      (c.program g d fills) _ held
    refine ⟨⟨_, find?_add_self missing rfl rfl, rfl⟩, retained_add _ _,
      onward.sane, fun r hr => ?_⟩
    rcases mem_append.mp hr with hr | hr
    · exact onward.known r hr
    · obtain rfl := mem_singleton.mp hr
      exact hb.created _ _ held.sane

/-- The first program that is tried is the one that is found. -/
theorem obtained_attempt (hb : b.Answers drift sane known allowed)
    (works : ∀ status, allowed status → status.Works) (held : t.cache.Held sane known t.backend)
    (steps : List (Nat × List String)) :
    let out := t.attempt b c g steps d fills
    Obtained sane known c.pass d.signature t out.1.1 out.2 ∧ allowed out.1.2 := by
  have first := obtained_obtain (c := c) (g := g) (d := d) hb held fills
  unfold attempt
  dsimp only
  generalize t.obtain b c g d fills = tried at first ⊢
  obtain ⟨program, t'⟩ := tried
  have handled : known t'.backend program.handle := by
    obtain ⟨r, hr, rfl⟩ := first.found
    exact first.held.known r (of_find? hr).1
  have answer := hb.answers _ _ first.held.sane handled
  -- only a failure would lead on to the fallbacks
  split
  · rename_i message failed
    exact absurd failed (works _ answer message)
  · exact ⟨⟨first.found, first.retained,
      (ProgramCache.Held.keeps hb.toRetains t'.cache).poll _ _ first.held⟩, answer⟩

end Trial

/-! ## 3. Settled targets -/

/-- The program is the one for the pass and the defines of a target. -/
structure Installed.Fits (p : Installed) (t : DrawTarget) : Prop where
  pass : p.pass = t.pass
  signature : p.signature = t.defines.signature

namespace DrawTarget

variable {t t' : DrawTarget} {cache cache' : ProgramCache} {pass : PassId}

/-- A target with clean defines has the program for them, and one that waits for a program looks
again. -/
structure Settled (t : DrawTarget) : Prop where
  sorted : Keyed.Sorted t.defines.values
  clean : t.defines.isDirty = false → ∃ p, t.active = some p ∧ p.Fits t
  waits : ∀ p, t.pending = some p → p.Fits t ∧ t.defines.isDirty = true

/-- If the defines are clean, the program in use is the one that is kept for them. -/
def Shares (t : DrawTarget) (cache : ProgramCache) : Prop :=
  t.defines.isDirty = false →
    ∃ r, cache.find? t.pass t.defines.signature = some r ∧ t.active = some r.program

theorem settled_new : ({} : DrawTarget).Settled :=
  ⟨List.Pairwise.nil, fun h => (nomatch h), fun _ h => (nomatch h)⟩

theorem Settled.moveTo (h : t.Settled) (pass : PassId) : (t.moveTo pass).Settled := by
  unfold DrawTarget.moveTo
  split
  · exact h
  · exact ⟨h.sorted, fun clean => (nomatch clean), fun _ waits => (nomatch waits)⟩

theorem moveTo_of_clean (h : (t.moveTo pass).defines.isDirty = false) :
    t.pass = pass ∧ t.moveTo pass = t := by
  unfold DrawTarget.moveTo at h ⊢
  split at h
  · rename_i same
    exact ⟨same, if_pos same⟩
  · cases h

theorem Shares.moveTo (h : t.pass = pass → t.Shares cache) : (t.moveTo pass).Shares cache := by
  intro clean
  obtain ⟨same, eq⟩ := moveTo_of_clean clean
  rw [eq] at clean ⊢
  exact h same clean

theorem Shares.mono (h : t.Shares cache) (retained : cache.Retained cache') : t.Shares cache' := by
  intro clean
  obtain ⟨r, hr, active⟩ := h clean
  exact ⟨r, retained _ _ r hr, active⟩

end DrawTarget

namespace Material

variable {σ : Type} {b : Backend σ} {drift : σ → σ → Prop} {sane : σ → Prop}
  {known : σ → ProgramHandle → Prop} {allowed : ProgramStatus → Prop} {m : Material}
  {c : CompiledGraph} {t : DrawTarget} {s : σ} {d : DefineSet}

/-- What a check that gets to the programs leaves when no program fails. -/
structure Renewed (m : Material) (c : CompiledGraph) (sane : σ → Prop)
    (known : σ → ProgramHandle → Prop) (allowed : ProgramStatus → Prop) (d : DefineSet)
    (r : Readiness σ) : Prop where
  held : r.material.cache.Held sane known r.backend
  retained : m.cache.Retained r.material.cache
  pass : r.target.pass = c.pass
  values : r.target.defines.values = d.values
  settled : r.target.Settled
  shares : r.target.Shares r.material.cache
  /-- The program for the defines is in use, or the target waits for it. -/
  served : (∃ p, r.target.active = some p ∧ p.Fits r.target) ∨
    ∃ p, r.target.pending = some p ∧ p.Fits r.target
  /-- Where every program is ready at once, there is nothing to wait for. -/
  prompt : (∀ status, allowed status → status = .ready) → r.target.defines.isDirty = false

theorem Renewed.ask {r : Readiness σ} (hb : b.Retains drift sane known)
    (h : Renewed m c sane known allowed d r) (t : DrawTarget) (ready : Bool)
    (reports : List String) :
    Renewed m c sane known allowed d
      { r with ready, backend := (activeReady b t r.backend).2, reports } :=
  { h with held := keeps_activeReady (ProgramCache.Held.keeps hb _) t h.held }

/-- What was found is taken up or awaited by a target whose defines are processed. -/
theorem renewed_adopt {start trial : Trial σ} {program : Installed} {status : ProgramStatus}
    {u : DrawTarget} (works : ∀ status, allowed status → status.Works)
    (cached : start.cache = m.cache)
    (found : Trial.Obtained sane known c.pass u.defines.signature start program trial)
    (answer : allowed status) (pass : u.pass = c.pass) (values : u.defines.values = d.values)
    (processed : u.defines.isDirty = false) (sorted : Keyed.Sorted d.values) (hotSwap kept : Bool) :
    Renewed m c sane known allowed d
      { ready := kept, material := { m with cache := trial.cache }
        target := u.adopt hotSwap kept program status, backend := trial.backend } := by
  obtain ⟨r, hr, rfl⟩ := found.found
  have matching := (of_find? hr).2
  have fits : ∀ t : DrawTarget, t.pass = u.pass → t.defines.values = u.defines.values →
      r.program.Fits t := fun t samePass sameValues =>
    ⟨matching.1.trans (samePass.trans pass).symm,
      matching.2.trans (signature_congr sameValues).symm⟩
  have sorted : Keyed.Sorted u.defines.values := values ▸ sorted
  have retained : m.cache.Retained trial.cache := cached ▸ found.retained
  cases status with
  | failed message => exact absurd rfl (works _ answer message)
  | ready =>
    refine ⟨found.held, retained, pass, values,
      ⟨sorted, fun _ => ⟨r.program, rfl, fits _ rfl rfl⟩, fun _ h => (nomatch h)⟩,
      fun _ => ⟨r, ?_, rfl⟩, .inl ⟨r.program, rfl, fits _ rfl rfl⟩, fun _ => processed⟩
    rw [← pass] at hr
    exact hr
  | pending =>
    have undecided : ¬∀ status, allowed status → status = .ready := fun prompt =>
      nomatch prompt _ answer
    -- taken up or awaited, the defines are marked, so that the next check looks again
    unfold DrawTarget.adopt
    dsimp only
    generalize (hotSwap && kept) = swaps
    cases swaps with
    | true =>
      refine ⟨found.held, retained, pass, values, ⟨sorted, fun h => (nomatch h), ?_⟩,
        fun h => (nomatch h), .inr ⟨r.program, rfl, fits _ rfl rfl⟩, fun h => absurd h undecided⟩
      intro p hp
      cases hp
      exact ⟨fits _ rfl rfl, rfl⟩
    | false =>
      exact ⟨found.held, retained, pass, values,
        ⟨sorted, fun h => (nomatch h), fun _ h => (nomatch h)⟩, fun h => (nomatch h),
        .inl ⟨r.program, rfl, fits _ rfl rfl⟩, fun h => absurd h undecided⟩

variable (hb : b.Answers drift sane known allowed) (works : ∀ status, allowed status → status.Works)
  (held : m.cache.Held sane known s)
include hb works held

theorem obtained_search :
    Trial.Obtained sane known c.pass (t.refreshAll c m.graph).defines.signature
      { cache := m.cache, backend := s, stats := (t.refreshAll c m.graph).stats }
      (m.search b c t s).1.1 (m.search b c t s).2 ∧ allowed (m.search b c t s).1.2 :=
  Trial.obtained_attempt hb works held _

theorem renewed_specialize (pass : t.pass = c.pass) (sorted : Keyed.Sorted t.defines.values) :
    Renewed m c sane known allowed t.defines (m.specialize b c t s) := by
  have refreshed := t.refreshed_refreshAll c m.graph
  obtain ⟨found, answer⟩ := obtained_search (c := c) (t := t) hb works held
  exact (renewed_adopt (u := { t.refreshAll c m.graph with stats := (m.search b c t s).2.stats })
    works rfl found answer (refreshed.pass.trans pass) (t.values_refreshAll c m.graph)
    (t.clean_refreshAll c m.graph) sorted _ _).ask hb.toRetains _ _ _

/-- A check that finds the defines clean has written nothing, so the target is one of the pass and
does not wait for a program. -/
theorem renewed_consult (settled : t.Settled) (shares : t.pass = c.pass → t.Shares m.cache)
    (mesh : Mesh) (scene : Scene) :
    let prepared := m.prepared c t mesh scene
    Renewed m c sane known allowed prepared.defines (m.consult b c prepared s) := by
  have assigns := c.assigns_prepareDefines m.graph mesh scene
  have moved := settled.moveTo c.pass
  unfold consult
  dsimp only
  split
  · exact renewed_specialize hb works held (t.pass_moveTo c.pass) (assigns.sorted _ moved.sorted)
  · rename_i clean
    have clean : (m.prepared c t mesh scene).defines.isDirty = false := by simpa using clean
    have same : m.prepared c t mesh scene = t.moveTo c.pass := by
      unfold prepared at clean ⊢
      rw [assigns.unchanged _ clean]
    rw [same] at clean ⊢
    have pass := t.pass_moveTo c.pass
    have shares := DrawTarget.Shares.moveTo shares
    generalize t.moveTo c.pass = u at moved clean pass shares ⊢
    have idle : u.pending = none := by
      cases hp : u.pending with
      | none => rfl
      | some p => cases clean.symm.trans (moved.waits p hp).2
    have waited : awaitPending b u s =
        ({ u with stats := { u.stats with cacheHits := u.stats.cacheHits + 1 } }, s) := by
      simp only [awaitPending, idle]
    obtain ⟨p, active, fits⟩ := moved.clean clean
    rw [waited]
    exact ⟨held, fun _ _ _ h => h, pass, rfl,
      ⟨moved.sorted, fun _ => ⟨p, active, fits.pass, fits.signature⟩, fun q hq =>
        (nomatch idle.symm.trans hq)⟩, shares, .inl ⟨p, active, fits.pass, fits.signature⟩,
      fun _ => clean⟩

/-- A check that gets to the programs leaves the target with the program for its defines, or waiting
for it. -/
theorem renewed_ready (settled : t.Settled) (shares : t.pass = c.pass → t.Shares m.cache)
    (serves : m.Serves c) (mesh : Mesh) (scene : Scene) :
    Renewed m c sane known allowed (m.prepared c t mesh scene).defines
      (m.ready b t mesh scene s) := by
  rw [ready_of_serves serves]
  exact (renewed_consult hb works held settled shares mesh scene).ask hb.toRetains _ _ _

end Material

/-! ## 4. Runs in which no program fails -/

namespace Studio

open Relation

variable {σ : Type} {b : Backend σ} {drift : σ → σ → Prop} {sane : σ → Prop}
  {known : σ → ProgramHandle → Prop} {allowed : ProgramStatus → Prop} {w w' w₀ : Studio σ}
  {c : CompiledGraph}

/-- What holds at every moment of such a run. -/
structure Specialized (sane : σ → Prop) (known : σ → ProgramHandle → Prop) (w : Studio σ) :
    Prop where
  ordered : w.Ordered
  held : w.material.cache.Held sane known w.backend
  behind : ∀ n, (w.targets n).pass.index ≤ w.material.newest.index
  settled : ∀ n, (w.targets n).Settled
  shares : ∀ c, w.material.compiled = some c → ∀ n, (w.targets n).pass = c.pass →
    (w.targets n).Shares w.material.cache

namespace Specialized

variable {m : Material}

theorem of_opened (h : w.Opened) (hs : sane w.backend) : w.Specialized sane known := by
  cases h
  exact ⟨.of_opened (.new _ _ _ _), ⟨hs, fun _ hr => (nomatch hr)⟩, fun _ => Nat.le_refl _,
    fun _ => settled_new, fun _ h => (nomatch h)⟩

theorem withTarget (hw : w.Specialized sane known) {n : Nat} {t : DrawTarget} {s : σ}
    (ordered : ({ w.setTarget n t with material := m, backend := s } : Studio σ).Ordered)
    (pass : m.pass = w.material.pass) (compiled : m.compiled = w.material.compiled)
    (held : m.cache.Held sane known s) (retained : w.material.cache.Retained m.cache)
    (behind : t.pass.index ≤ w.material.newest.index) (settled : t.Settled)
    (shares : ∀ c, w.material.compiled = some c → t.pass = c.pass → t.Shares m.cache) :
    ({ w.setTarget n t with material := m, backend := s } : Studio σ).Specialized sane known := by
  refine ⟨ordered, held, ?_, forall_setTarget (P := fun _ t => t.Settled) hw.settled settled,
    fun c hc => ?_⟩
  · have newest : m.newest = w.material.newest := by rw [newest, pass, compiled]; rfl
    change ∀ k, ((w.setTarget n t).targets k).pass.index ≤ m.newest.index
    rw [newest]
    exact forall_setTarget (P := fun _ t => t.pass.index ≤ w.material.newest.index) hw.behind behind
  · rw [compiled] at hc
    exact forall_setTarget (P := fun _ t => t.pass = c.pass → t.Shares m.cache)
      (fun k hk => (hw.shares c hc k hk).mono retained) (shares c hc)

theorem edit (hw : w.Specialized sane known) (h : w.material.Edit m) :
    ({ w with material := m, edited := true } : Studio σ).Specialized sane known := by
  obtain ⟨ordered, advances⟩ := hw.ordered.edit h
  have behind := fun n => (hw.behind n).trans advances.newest
  rcases h.passes with same | rfl
  · refine ⟨ordered, ?_, behind, hw.settled, ?_⟩
    · rw [same.cache]
      exact hw.held
    · rw [same.compiled, same.cache]
      exact hw.shares
  · exact ⟨ordered, ⟨hw.held.sane, fun _ hr => (nomatch hr)⟩, behind, hw.settled,
      fun _ hc => (nomatch hc)⟩

theorem build (hw : w.Specialized sane known) : w.build.Specialized sane known := by
  obtain ⟨ordered, advances⟩ := hw.ordered.build
  have behind := fun n => (hw.behind n).trans advances.newest
  obtain ⟨same, -⟩ | ⟨next, records, outcome⟩ := w.material.build_cases
  · have unchanged : w.build.material = w.material := same
    refine ⟨ordered, ?_, behind, hw.settled, ?_⟩
    · rw [unchanged]
      exact hw.held
    · rw [unchanged]
      exact hw.shares
  · refine ⟨ordered, ⟨hw.held.sane, fun r hr => hw.held.known r (records hr)⟩, behind, hw.settled,
      fun c hc n hn => ?_⟩
    rcases outcome with ⟨none | kept, cache, -⟩ | ⟨c', -, compiled, pass⟩
    · cases none.symm.trans hc
    · have shares := hw.shares c (kept ▸ hc) n hn
      rwa [← cache] at shares
    · -- no target has come to a pass that is new
      cases compiled.symm.trans hc
      have later := (hw.behind n).trans hw.ordered.newest_le
      rw [show (w.targets n).pass = c.pass from hn, pass] at later
      exact absurd later (Nat.not_succ_le_self _)

theorem step (hb : b.Answers drift sane known allowed)
    (works : ∀ status, allowed status → status.Works) (hw : w.Specialized sane known)
    (h : Move b drift w w') : w'.Specialized sane known := by
  have ordered := (hw.ordered.step (.move h)).1
  cases h with
  | edit h => exact hw.edit h
  | build => exact hw.build
  | ready n mesh scene =>
    by_cases serves : ∃ c, w.material.Serves c
    · obtain ⟨c, serves⟩ := serves
      obtain ⟨cache, same⟩ := w.material.material_ready b (w.targets n) mesh scene w.backend
      have renewed := renewed_ready hb works hw.held (hw.settled n)
        (hw.shares c serves.compiled n) serves mesh scene
      refine hw.withTarget ordered (by rw [same]) (by rw [same]) renewed.held renewed.retained ?_
        renewed.settled fun _ _ _ => renewed.shares
      rw [renewed.pass, newest_of_compiled serves.compiled]
    · -- the check stops early, and at most moves the target on to the pass
      obtain ⟨t, eq, same⟩ := ready_of_idle b (w.targets n) mesh scene w.backend
        fun c hc => serves ⟨c, hc⟩
      have idle : w.ready b n mesh scene = { w.setTarget n t with material := w.material } := by
        unfold Studio.ready
        rw [eq]
        rfl
      rw [idle] at ordered ⊢
      rcases same with rfl | ⟨c, hc, rfl⟩
      · exact hw.withTarget ordered rfl rfl hw.held (fun _ _ _ h => h) (hw.behind n) (hw.settled n)
          fun c hc => hw.shares c hc n
      · refine hw.withTarget ordered rfl rfl hw.held (fun _ _ _ h => h) ?_
          ((hw.settled n).moveTo c.pass) fun c' hc' _ => ?_
        · rw [pass_moveTo, newest_of_compiled hc]
        · exact DrawTarget.Shares.moveTo (hw.shares c hc n)
  | bind n mesh scene =>
    have same := w.material.samePasses_bind (w.targets n) mesh scene
    obtain ⟨lastBound, target⟩ := w.material.target_bind (w.targets n) mesh scene
    have settled := hw.settled n
    refine hw.withTarget (m := (w.material.bind (w.targets n) mesh scene).2.1)
      (t := (w.material.bind (w.targets n) mesh scene).2.2) (s := w.backend) ordered same.pass
      same.compiled ?_ ?_ ?_ ?_ ?_
    · rw [same.cache]
      exact hw.held
    · rw [same.cache]
      exact fun _ _ _ h => h
    · rw [target]
      exact hw.behind n
    · rw [target]
      refine ⟨settled.sorted, fun clean => ?_, fun p hp => ?_⟩
      · obtain ⟨p, hp, fits⟩ := settled.clean clean
        exact ⟨p, hp, fits.pass, fits.signature⟩
      · obtain ⟨fits, dirty⟩ := settled.waits p hp
        exact ⟨⟨fits.pass, fits.signature⟩, dirty⟩
    · rw [target, same.cache]
      exact fun c hc => hw.shares c hc n
  | drift h =>
    exact ⟨ordered, ⟨hb.drifts _ _ h hw.held.sane,
      fun r hr => hb.drift _ _ _ h hw.held.sane (hw.held.known r hr)⟩, hw.behind, hw.settled,
      hw.shares⟩

theorem run (hb : b.Answers drift sane known allowed)
    (works : ∀ status, allowed status → status.Works) (hw : w.Specialized sane known)
    (h : ReflTransGen (Move b drift) w w') : w'.Specialized sane known := by
  induction h with
  | refl => exact hw
  | tail _ hstep ih => exact ih.step hb works hstep

end Specialized

/-- No target is left with the program for other defines. After a check that gets to the programs
the one for the defines is in use, or the target waits for it and will look again; and whenever the
defines are clean in the current pass, the program in use is the one that is kept for them. The
current pass is that of what is compiled, unless it came to a lost entry. -/
theorem no_stale_specialization (hb : b.Answers drift sane known ProgramStatus.Works)
    (start : w₀.Opened) (hs : sane w₀.backend) (h : ReflTransGen (Move b drift) w₀ w) :
    (∀ n c mesh scene, w.material.Serves c →
      let t := (w.ready b n mesh scene).targets n
      t.pass = c.pass ∧ (c.pass = w.material.pass ∨ Stalled b drift w₀ w) ∧
        ((∃ p, t.active = some p ∧ p.Fits t) ∨
          t.defines.isDirty = true ∧ ∃ p, t.pending = some p ∧ p.Fits t)) ∧
    ∀ n, (w.targets n).pass = w.material.pass → (w.targets n).defines.isDirty = false →
      ∃ p, (w.targets n).active = some p ∧ p.Fits (w.targets n) ∧
        ∀ c, w.material.compiled = some c → ∃ r,
          w.material.cache.find? w.material.pass (w.targets n).defines.signature = some r ∧
            r.program = p := by
  have hw : w.Specialized sane known :=
    (Specialized.of_opened start hs).run hb (fun _ works => works) h
  constructor
  · intro n c mesh scene serves
    have renewed := Material.renewed_ready hb (fun _ works => works) hw.held (hw.settled n)
      (hw.shares c serves.compiled n) serves mesh scene
    simp only [Studio.ready, if_true]
    have run := ReflTransGen.mono (fun _ _ h => Handling.move h) _ _ h
    refine ⟨renewed.pass, (current_or_stalled start run).imp_left fun current =>
      current c serves.compiled, ?_⟩
    rcases renewed.served with active | ⟨p, hp, fits⟩
    · exact .inl active
    · exact .inr ⟨(renewed.settled.waits p hp).2, p, hp, fits⟩
  · intro n current clean
    obtain ⟨p, hp, fits⟩ := (hw.settled n).clean clean
    refine ⟨p, hp, fits, fun c hc => ?_⟩
    -- a target of the current pass has come to it with what is compiled
    have pass : (w.targets n).pass = c.pass := by
      have behind := hw.behind n
      rw [newest_of_compiled hc] at behind
      have ahead := hw.ordered.compiled c hc
      rw [← current] at ahead
      exact congrArg PassId.mk (Nat.le_antisymm behind ahead)
    obtain ⟨r, hr, active⟩ := hw.shares c hc n pass clean
    exact ⟨r, current ▸ hr, Option.some.inj (active.symm.trans hp)⟩

end Studio

namespace Scripted

variable {allowed : ProgramStatus → Prop} {s : Scripted}

/-- A new program gets an `allowed` answer. -/
def Gives (allowed : ProgramStatus → Prop) (s : Scripted) : Prop :=
  ∀ source, allowed (s.judge source)

def Known (allowed : ProgramStatus → Prop) (s : Scripted) (h : ProgramHandle) : Prop :=
  ∃ status, s.statuses.find? h = some status ∧ allowed status

/-- What is told later may be anything that is `allowed`. -/
def Proceeds (allowed : ProgramStatus → Prop) (s s' : Scripted) : Prop :=
  s'.Gives allowed ∧ ∀ h, s.Known allowed h → s'.Known allowed h

theorem find?_decide_self (s : Scripted) (h : ProgramHandle) (status : ProgramStatus) :
    (s.decide h status).statuses.find? h = some status := by
  have gone : (s.statuses.erase h).lookup h = none := by
    rw [lookup_eq_none_iff]
    intro e he
    have apart : e.1 ≠ h := by simpa using (mem_filter.mp he).2
    exact bne_iff_ne.mpr apart.symm
  change (s.statuses.erase h ++ [(h, status)]).lookup h = some status
  rw [lookup_append, gone]
  simp

theorem answers (allowed : ProgramStatus → Prop) :
    Backend.scripted.Answers (Proceeds allowed) (Gives allowed) (Known allowed) allowed where
  keeps := ⟨fun _ _ hs => hs, fun _ _ hs => hs⟩
  drifts _ _ h _ := h.1
  create source s h hs := by
    rintro ⟨status, found, fine⟩
    by_cases same : h = ⟨s.next + 1⟩
    · exact ⟨_, same ▸ s.find?_decide_self _ _, hs source⟩
    · exact ⟨status, (find?_decide same s _).trans found, fine⟩
  poll _ _ _ _ h := h
  drift _ _ h proceeds _ := proceeds.2 h
  created source s hs := ⟨_, s.find?_decide_self _ _, hs source⟩
  answers h s _ := by
    rintro ⟨status, found, fine⟩
    change allowed ((s.statuses.find? h).getD _)
    rw [found]
    exact fine

theorem judge_of_lenient (h : s.reject = []) (source : ProgramSource) :
    s.judge source = if s.defer then .pending else .ready := by
  unfold judge
  rw [h]
  rfl

theorem gives_works (h : s.reject = []) : s.Gives ProgramStatus.Works := by
  intro source message
  rw [judge_of_lenient h]
  cases s.defer <;> exact fun h => nomatch h

theorem gives_ready (h : s.reject = []) (prompt : s.defer = false) : s.Gives (· = .ready) := by
  intro source
  rw [judge_of_lenient h, prompt]
  rfl

theorem proceeds_defer (h : s.reject = []) :
    s.Proceeds ProgramStatus.Works { s with defer := true } :=
  ⟨gives_works h, fun _ h => h⟩

end Scripted

namespace Studio

open Relation
open ProgramStatus (Works)

theorem run_slowed {w w₀ : Studio Scripted} (h : w.backend.reject = [])
    (run : ReflTransGen (Move .scripted (Scripted.Proceeds Works)) w₀ w) :
    ReflTransGen (Move .scripted (Scripted.Proceeds Works)) w₀ w.delayed :=
  (run.tail (.drift (Scripted.proceeds_defer h))).tail (.build _)

/-- The old program stays in use, and the target waits for the new one. -/
theorem awaiting_not_stale :
    Backend.scripted.Answers (Scripted.Proceeds Works) (Scripted.Gives Works)
        (Scripted.Known Works) Works ∧
      (empty ({} : Scripted)).Opened ∧ (empty ({} : Scripted)).backend.Gives Works ∧
      ReflTransGen (Move .scripted (Scripted.Proceeds Works)) (empty ({} : Scripted)) drawn ∧
      ReflTransGen (Move .scripted (Scripted.Proceeds Works)) (empty ({} : Scripted))
        drawn.delayed ∧
      (∃ p, (drawn.targets 0).active = some p ∧ p.Fits (drawn.targets 0)) ∧
      (awaiting.targets 0).pass = drawn.delayed.material.pass ∧
      (awaiting.targets 0).active = (drawn.targets 0).active ∧
      ∃ p, (awaiting.targets 0).pending = some p ∧ p.Fits (awaiting.targets 0) := by
  have run : ReflTransGen (Move .scripted (Scripted.Proceeds Works))
      (empty ({} : Scripted)) drawn :=
    run_drawn
  have run' := run_slowed (by decide +kernel) run
  have gives : (empty ({} : Scripted)).backend.Gives Works := Scripted.gives_works rfl
  obtain ⟨-, clean⟩ := no_stale_specialization (Scripted.answers _) (opened_empty _) gives run
  obtain ⟨checked, -⟩ := no_stale_specialization (Scripted.answers _) (opened_empty _) gives run'
  obtain ⟨c, serves⟩ := Material.exists_serves (m := drawn.delayed.material) (by decide +kernel)
  obtain ⟨pass, -, served⟩ := checked 0 c {} {} serves
  have current : drawn.delayed.material.compiled.map CompiledGraph.pass =
      some drawn.delayed.material.pass := by decide +kernel
  rw [serves.compiled, Option.map_some, Option.some.injEq] at current
  obtain ⟨p, hp, fits, -⟩ := clean 0 (by decide +kernel) (by decide +kernel)
  have same : (awaiting.targets 0).active = (drawn.targets 0).active := by decide +kernel
  have later : (drawn.targets 0).pass ≠ (awaiting.targets 0).pass := by decide +kernel
  refine ⟨Scripted.answers _, opened_empty _, gives, run, run', ⟨p, hp, fits⟩,
    pass.trans current, same, ?_⟩
  rcases served with ⟨q, hq, fits'⟩ | ⟨-, waits⟩
  · obtain rfl : p = q := Option.some.inj (hp.symm.trans (same.symm.trans hq))
    exact absurd (fits.pass.symm.trans fits'.pass) later
  · exact waits

end Studio

end ShaderGraph
