import ShaderGraph.Proofs.Specializing
import ShaderGraph.Proofs.Varyings

/-!
# Programs that are tried one after the other

A program that is rejected is tried again with fewer defines, rank by rank. The search keeps texts
from one check to the next, finds programs that were made for other targets, and works on a copy of
the defines. None of this shows in what it tries: `Trial.Descent` says that a search goes down the
ladder of define sets, that each try is the program of its own define set with everything spliced in
for it, and which try decides. `Studio.search_descends` says so of every search in a run in which
readiness is checked only of what was built.
-/

namespace ShaderGraph

variable {c : CompiledGraph} {g : Graph} (k : Kind) (d : DefineSet) (t : DrawTarget)

/-! ## 1. Chains -/

namespace FallbackChain

variable {chain : FallbackChain} {rank r : Nat} {name n : String}

def names (chain : FallbackChain) (rank : Nat) : List String :=
  (Keyed.get? rank chain.steps).getD []

/-- The ranks of a chain increase, and each of them has defines. -/
structure Ranked (chain : FallbackChain) : Prop where
  increasing : (chain.steps.map Prod.fst).Pairwise (· < ·)
  inhabited : ∀ s ∈ chain.steps, s.2 ≠ []

theorem Ranked.empty : ({} : FallbackChain).Ranked :=
  ⟨List.Pairwise.nil, fun _ hs => nomatch hs⟩

theorem Ranked.add (h : chain.Ranked) (rank : Nat) (name : String) :
    (chain.add rank name).Ranked where
  increasing := by
    refine List.pairwise_map.mpr (Keyed.pairwise_insert Nat.lt_trans Nat.lt_or_gt_of_ne ?_ _ _)
    exact List.pairwise_map.mp h.increasing
  inhabited s hs := by
    rcases Keyed.mem_insert hs with rfl | hs
    · split
      · rename_i known
        exact List.ne_nil_of_mem (List.contains_iff_mem.mp known)
      · simp
    · exact h.inhabited s hs

theorem Ranked.names_eq (h : chain.Ranked) {s : Nat × List String} (hs : s ∈ chain.steps) :
    chain.names s.1 = s.2 := by
  have distinct : (chain.steps.map Prod.fst).Nodup := h.increasing.imp Nat.ne_of_lt
  rw [names, Keyed.get?_of_mem distinct hs]
  rfl

theorem mem_names_add :
    n ∈ (chain.add rank name).names r ↔ n ∈ chain.names r ∨ (r = rank ∧ n = name) := by
  unfold names add
  rw [Keyed.get?_insert]
  by_cases same : rank = r
  · subst same
    rw [if_pos rfl, Option.getD_some]
    split
    · rename_i known
      have known := List.contains_iff_mem.mp known
      exact ⟨.inl, fun h => h.elim id fun h => h.2 ▸ known⟩
    · simp
  · simp [same, Ne.symm same]

end FallbackChain

theorem Kind.mem_names_fallbacks (chain : FallbackChain) (rank : Nat) (name : String) :
    name ∈ (k.fallbacks d chain).names rank ↔
      name ∈ chain.names rank ∨ name ∈ (k.fallbacks d {}).names rank := by
  have none : name ∉ ({} : FallbackChain).names rank := List.not_mem_nil
  cases k with
  | bones b =>
    simp only [Kind.fallbacks, BonesBlock.fallbacks]
    split <;> simp [FallbackChain.mem_names_add, none]
  | fog f =>
    simp only [Kind.fallbacks, FogBlock.fallbacks]
    split <;> simp [FallbackChain.mem_names_add, none]
  | _ => simp [Kind.fallbacks, none]

theorem Kind.ranked_fallbacks {chain : FallbackChain} (h : chain.Ranked) :
    (k.fallbacks d chain).Ranked := by
  cases k with
  | bones b =>
    simp only [Kind.fallbacks, BonesBlock.fallbacks]
    split
    · exact h.add _ _
    · exact h
  | fog f =>
    simp only [Kind.fallbacks, FogBlock.fallbacks]
    split
    · exact h.add _ _
    · exact h
  | _ => exact h

namespace CompiledGraph

theorem ranked_fallbackChain (c : CompiledGraph) (g : Graph) (d : DefineSet) :
    (c.fallbackChain g d).Ranked := by
  have all : ∀ (blocks : List Block) (chain : FallbackChain), chain.Ranked →
      (blocks.foldl (fun chain b => b.kind.fallbacks d chain) chain).Ranked := by
    intro blocks
    induction blocks with
    | nil => exact fun _ h => h
    | cons b rest ih => exact fun chain h => ih _ (b.kind.ranked_fallbacks d h)
  exact all _ _ .empty

/-- The chain has what the blocks with fallbacks add, and nothing else. -/
theorem mem_names_fallbackChain (c : CompiledGraph) (g : Graph) (d : DefineSet) (rank : Nat)
    (name : String) : name ∈ (c.fallbackChain g d).names rank ↔
      ∃ b ∈ c.participants g .fallbacks, name ∈ (b.kind.fallbacks d {}).names rank := by
  have all : ∀ (blocks : List Block) (chain : FallbackChain),
      name ∈ (blocks.foldl (fun chain b => b.kind.fallbacks d chain) chain).names rank ↔
        name ∈ chain.names rank ∨ ∃ b ∈ blocks, name ∈ (b.kind.fallbacks d {}).names rank := by
    intro blocks
    induction blocks with
    | nil => simp
    | cons b rest ih =>
      intro chain
      rw [List.foldl_cons, ih, b.kind.mem_names_fallbacks d chain, List.exists_mem_cons_iff,
        or_assoc]
  rw [fallbackChain, all]
  exact or_iff_right List.not_mem_nil

end CompiledGraph

/-- A define set, and what is left of it as the steps of a chain are taken. -/
def DefineSet.ladder (d : DefineSet) : List (Nat × List String) → List DefineSet
  | [] => [d]
  | s :: rest => d :: (d.switchOff s.2).ladder rest

theorem DefineSet.length_ladder (steps : List (Nat × List String)) :
    (d.ladder steps).length = steps.length + 1 := by
  induction steps generalizing d with
  | nil => rfl
  | cons s rest ih => exact congrArg (· + 1) (ih _)

/-! ## 2. Calls and tries -/

namespace Backend

/-- A call of the place where programs are compiled, with its answer. -/
inductive Call where
  | create (source : ProgramSource) (h : ProgramHandle)
  | poll (h : ProgramHandle) (status : ProgramStatus)
deriving DecidableEq

def Call.isCreate : Call → Bool
  | .create _ _ => true
  | .poll _ _ => false

/-- Calls that are made one after the other. -/
inductive Performs {σ : Type} (b : Backend σ) : List Call → σ → σ → Prop
  | nil (s : σ) : Performs b [] s s
  | create {source : ProgramSource} {h : ProgramHandle} {calls : List Call} {s s' s'' : σ} :
      b.create source s = (h, s') → Performs b calls s' s'' →
      Performs b (.create source h :: calls) s s''
  | poll {h : ProgramHandle} {status : ProgramStatus} {calls : List Call} {s s' s'' : σ} :
      b.poll h s = (status, s') → Performs b calls s' s'' →
      Performs b (.poll h status :: calls) s s''

theorem Performs.append {σ : Type} {b : Backend σ} {calls calls' : List Call} {s s' s'' : σ}
    (h : b.Performs calls s s') (h' : b.Performs calls' s' s'') :
    b.Performs (calls ++ calls') s s'' := by
  induction h with
  | nil => exact h'
  | create answer _ ih => exact .create answer (ih h')
  | poll answer _ ih => exact .poll answer (ih h')

end Backend

/-- A program that was tried, with the answer that it got. -/
structure Try where
  program : Installed
  status : ProgramStatus
  /-- The text that was handed over, unless the program was there already. -/
  handed : Option ProgramSource := none

namespace Try

/-- What is asked of the place where programs are compiled. -/
def calls (x : Try) : List Backend.Call :=
  (x.handed.map fun source => .create source x.program.handle).toList ++
    [.poll x.program.handle x.status]

theorem countP_calls (x : Try) :
    x.calls.countP Backend.Call.isCreate = x.handed.toList.length := by
  cases h : x.handed with
  | none => simp [calls, h, Backend.Call.isCreate]
  | some source =>
    simp only [calls, h, Option.map_some, Option.toList_some]
    rfl

/-- The try is that of the program of a define set, with everything spliced in for it: so is the
text that is kept for the program, and the one that was handed over. -/
structure Of (x : Try) (c : CompiledGraph) (g : Graph) (d : DefineSet) (cache : ProgramCache) :
    Prop where
  kept : ∃ r, cache.find? c.pass d.signature = some r ∧ r.program = x.program ∧
    r.source = c.program g d (c.spliceAll g d)
  handed : ∀ source ∈ x.handed, source = c.program g d (c.spliceAll g d)

end Try

/-- What was found before is found again, though its failure may have been reported since. -/
def ProgramCache.Recalls (cache cache' : ProgramCache) : Prop := ∀ pass signature r,
  cache.find? pass signature = some r →
    ∃ r', cache'.find? pass signature = some r' ∧ r'.program = r.program ∧ r'.source = r.source

namespace ProgramCache.Recalls

variable {cache cache' cache'' : ProgramCache}

theorem of_retained (h : cache.Retained cache') : cache.Recalls cache' :=
  fun pass signature r found => ⟨r, h pass signature r found, rfl, rfl⟩

theorem trans (h : cache.Recalls cache') (h' : cache'.Recalls cache'') :
    cache.Recalls cache'' := by
  intro pass signature r found
  obtain ⟨r', found', program', source'⟩ := h pass signature r found
  obtain ⟨r'', found'', program'', source''⟩ := h' pass signature r' found'
  exact ⟨r'', found'', program''.trans program', source''.trans source'⟩

theorem markReported (cache : ProgramCache) (p : Installed) :
    cache.Recalls (cache.markReported p) := by
  intro pass signature r found
  let mark (r : ProgramRecord) : ProgramRecord :=
    if r.program.pass == p.pass && r.program.signature == p.signature then
      { r with failureReported := true }
    else r
  have same : ∀ r, (mark r).program = r.program ∧ (mark r).source = r.source := by
    intro r
    dsimp only [mark]
    split <;> exact ⟨rfl, rfl⟩
  refine ⟨mark r, ?_, same r⟩
  show (cache.records.map mark).find? _ = _
  rw [List.find?_map]
  simp only [Function.comp_def, same]
  exact congrArg (Option.map mark) found

end ProgramCache.Recalls

theorem Try.Of.mono {x : Try} {d : DefineSet} {cache cache' : ProgramCache} (h : x.Of c g d cache)
    (recalls : cache.Recalls cache') : x.Of c g d cache' where
  kept := by
    obtain ⟨r, found, program, source⟩ := h.kept
    obtain ⟨r', found', program', source'⟩ := recalls _ _ _ found
    exact ⟨r', found', program'.trans program, source'.trans source⟩
  handed := h.handed

/-! ## 3. Searches -/

/-- The programs of a pass that are kept are those that splicing everything in afresh gives. -/
def ProgramCache.Fresh (cache : ProgramCache) (c : CompiledGraph) (g : Graph) : Prop :=
  ∀ r ∈ cache.records, r.program.pass = c.pass → r.Fresh c g

theorem ProgramCache.Fresh.grows {cache cache' : ProgramCache} (h : cache.Fresh c g)
    (grows : Grows c g True cache cache') : cache'.Fresh c g := by
  intro r hr pass
  rcases grows r hr with ⟨r₀, hr₀, program, source⟩ | ⟨-, fresh⟩
  · obtain ⟨d, hd, signature, text⟩ := h r₀ hr₀ (program ▸ pass)
    exact ⟨d, hd, program ▸ signature, source ▸ text⟩
  · exact fresh trivial

namespace Trial

variable {σ : Type} {b : Backend σ} {c : CompiledGraph} {g : Graph} {d : DefineSet}
  {fills : StageFills} {t t' : Trial σ} {x : Try}

/-- What one try does. -/
structure Tried (b : Backend σ) (c : CompiledGraph) (g : Graph) (d : DefineSet) (t : Trial σ)
    (x : Try) (t' : Trial σ) : Prop where
  calls : b.Performs x.calls t.backend t'.backend
  own : x.Of c g d t'.cache
  recalls : t.cache.Recalls t'.cache
  fresh : t'.cache.Fresh c g
  fallbacks : t'.stats.fallbacksApplied = t.stats.fallbacksApplied
  compiles : t'.stats.compiles = t.stats.compiles + x.handed.toList.length

/-- The texts at hand are those that the defines ask for, so that a program that is handed over is
like one that was found. -/
theorem tried_obtain (hd : d.Tidy) (same : fills.Same (c.spliceAll g d))
    (fresh : t.cache.Fresh c g) {status : ProgramStatus} {s : σ}
    (answer : b.poll (t.obtain b c g d fills).1.handle (t.obtain b c g d fills).2.backend =
      (status, s)) :
    ∃ handed, Tried b c g d t ⟨(t.obtain b c g d fills).1, status, handed⟩
      { (t.obtain b c g d fills).2 with backend := s } := by
  have still := fresh.grows (grows_obtain (b := b) hd (fun _ => same) t)
  unfold obtain at answer still ⊢
  cases known : t.cache.find? c.pass d.signature with
  | some r =>
    simp only [known] at answer still ⊢
    obtain ⟨hr, pass, signature⟩ := ProgramCache.of_find? known
    have source := (fresh r hr pass).source_eq hd.plain signature.symm
    exact ⟨none, .poll answer (.nil _), ⟨⟨r, known, rfl, source.symm⟩, fun _ h => nomatch h⟩,
      .of_retained fun _ _ _ h => h, still, rfl, rfl⟩
  | none =>
    simp only [known] at answer still ⊢
    have source : c.program g d fills = c.program g d (c.spliceAll g d) :=
      c.program_congr g ⟨fun _ => rfl, fun _ => rfl⟩ rfl same
    refine ⟨some (c.program g d fills), .create rfl (.poll answer (.nil _)), ⟨?_, ?_⟩,
      .of_retained (ProgramCache.retained_add _ _), still, rfl, rfl⟩
    · exact ⟨_, ProgramCache.find?_add_self known rfl rfl, rfl, source⟩
    · exact fun text h => Option.some.inj h ▸ source

theorem Tried.report (h : Tried b c g d t x t') (program : Installed) (message : String) :
    Tried b c g d t x (t'.report program message) := by
  have recalls : t'.cache.Recalls (t'.report program message).cache := by
    unfold Trial.report
    split
    · exact .of_retained fun _ _ _ h => h
    · split
      · exact .of_retained fun _ _ _ h => h
      · exact .markReported _ _
  have stats : (t'.report program message).stats = t'.stats := by
    unfold Trial.report
    split
    · rfl
    · split <;> rfl
  exact
    { calls := (backend_report t' program message).symm ▸ h.calls
      own := h.own.mono recalls
      recalls := h.recalls.trans recalls
      fresh := h.fresh.grows (grows_report _ _ _)
      fallbacks := stats ▸ h.fallbacks
      compiles := stats ▸ h.compiles }

/-- A step of the chain is taken. -/
def fallenBack (t : Trial σ) : Trial σ :=
  { t with stats := { t.stats with fallbacksApplied := t.stats.fallbacksApplied + 1 } }

/-- A search down a ladder of define sets. The tries are those of the define sets in their order;
all but the last one failed, and the last one decides. If that failed too, the ladder has no more
steps. -/
structure Descent (b : Backend σ) (c : CompiledGraph) (g : Graph) (ladder : List DefineSet)
    (t : Trial σ) (tries : List Try) (program : Installed) (status : ProgramStatus) (t' : Trial σ) :
    Prop where
  calls : b.Performs (tries.flatMap Try.calls) t.backend t'.backend
  own : List.Forall₂ (fun x d => x.Of c g d t'.cache) tries (ladder.take tries.length)
  failed : ∀ x ∈ tries.dropLast, ¬x.status.Works
  decided : ∃ handed, tries.getLast? = some ⟨program, status, handed⟩
  exhausted : ¬status.Works → tries.length = ladder.length
  fallbacks : t'.stats.fallbacksApplied + 1 = t.stats.fallbacksApplied + tries.length
  compiles : t'.stats.compiles =
    t.stats.compiles + (tries.flatMap Try.calls).countP Backend.Call.isCreate
  recalls : t.cache.Recalls t'.cache

namespace Descent

variable {program : Installed} {status : ProgramStatus} {ladder : List DefineSet} {tries : List Try}

theorem stop (h : Tried b c g d t x t') (ends : x.status.Works ∨ ladder = []) :
    Descent b c g (d :: ladder) t [x] x.program x.status t' where
  calls := by simpa using h.calls
  own := .cons h.own .nil
  failed y hy := nomatch hy
  decided := ⟨x.handed, rfl⟩
  exhausted failed := by rw [ends.resolve_left failed]; rfl
  fallbacks := congrArg (· + 1) h.fallbacks
  compiles := by rw [h.compiles, List.flatMap_singleton, x.countP_calls]
  recalls := h.recalls

theorem next {next : Trial σ} (h : Tried b c g d t x t') (failed : ¬x.status.Works)
    (later : Descent b c g ladder t'.fallenBack tries program status next) :
    Descent b c g (d :: ladder) t (x :: tries) program status next where
  calls := h.calls.append later.calls
  own := .cons (h.own.mono later.recalls) later.own
  failed y hy := by
    obtain ⟨handed, last⟩ := later.decided
    have some : tries ≠ [] := fun none => by rw [none] at last; cases last
    rw [List.dropLast_cons_of_ne_nil some] at hy
    rcases List.mem_cons.mp hy with rfl | hy
    · exact failed
    · exact later.failed y hy
  decided := by
    obtain ⟨handed, last⟩ := later.decided
    exact ⟨handed, by rw [List.getLast?_cons, last]; rfl⟩
  exhausted fails := congrArg (· + 1) (later.exhausted fails)
  fallbacks := by
    have before : t'.fallenBack.stats.fallbacksApplied = t.stats.fallbacksApplied + 1 :=
      congrArg (· + 1) h.fallbacks
    rw [later.fallbacks, before, List.length_cons, Nat.add_right_comm, Nat.add_assoc]
  compiles := by
    rw [later.compiles, List.flatMap_cons, List.countP_append, x.countP_calls, ← Nat.add_assoc]
    exact congrArg (· + _) h.compiles
  recalls := h.recalls.trans later.recalls

/-- At most one program is handed over for each define set. -/
theorem creates_le (h : Descent b c g ladder t tries program status t') :
    (tries.flatMap Try.calls).countP Backend.Call.isCreate ≤ ladder.length := by
  have each : ∀ tries : List Try,
      (tries.flatMap Try.calls).countP Backend.Call.isCreate ≤ tries.length := by
    intro tries
    induction tries with
    | nil => exact Nat.le_refl _
    | cons x rest ih =>
      rw [List.flatMap_cons, List.countP_append, x.countP_calls, List.length_cons, Nat.add_comm]
      exact Nat.add_le_add ih Option.length_toList_le
  have short := h.own.length_eq
  rw [List.length_take] at short
  exact (each tries).trans (by omega)

end Descent

/-- A search goes down the ladder of its define set. -/
theorem exists_descent {steps : List (Nat × List String)} (hd : d.Tidy)
    (words : ∀ s ∈ steps, ∀ n ∈ s.2, IsWord n) (same : fills.Same (c.spliceAll g d))
    (fresh : t.cache.Fresh c g) :
    let out := t.attempt b c g steps d fills
    ∃ tries, Descent b c g (d.ladder steps) t tries out.1.1 out.1.2 out.2 := by
  induction steps generalizing d fills t with
  | nil =>
    unfold attempt
    dsimp only
    split
    · rename_i message failed
      obtain ⟨handed, tried⟩ := tried_obtain (b := b) hd same fresh (s := _) (Prod.ext failed rfl)
      exact ⟨_, .stop (x := ⟨_, _, handed⟩) (failed ▸ tried.report _ _) (.inr rfl)⟩
    · obtain ⟨handed, tried⟩ := tried_obtain (b := b) hd same fresh rfl
      exact ⟨_, .stop tried (.inr rfl)⟩
  | cons s rest ih =>
    rw [List.forall_mem_cons] at words
    unfold attempt
    dsimp only
    split
    · rename_i message failed
      obtain ⟨handed, tried⟩ := tried_obtain (b := b) hd same fresh (s := _) (Prod.ext failed rfl)
      have reported := tried.report (t.obtain b c g d fills).1 message
      obtain ⟨tries, later⟩ :=
        ih (t := fallenBack _) (hd.switchOff words.1) words.2 (.refl _) reported.fresh
      exact ⟨_, .next reported (fun works => works message rfl) later⟩
    · rename_i works
      obtain ⟨handed, tried⟩ := tried_obtain (b := b) hd same fresh rfl
      exact ⟨_, .stop tried (.inl works)⟩

end Trial

/-! ## 4. Runs -/

theorem DrawTarget.fallbacksApplied_refreshAll (c : CompiledGraph) (g : Graph) :
    (t.refreshAll c g).stats.fallbacksApplied = t.stats.fallbacksApplied := by
  have each : ∀ (blocks : List Block) (dirty : DirtyFlags) (t : DrawTarget),
      (blocks.foldl (refresh c.language dirty) t).stats.fallbacksApplied =
        t.stats.fallbacksApplied := by
    intro blocks dirty
    induction blocks with
    | nil => exact fun _ => rfl
    | cons b rest ih =>
      intro t
      rw [List.foldl_cons, ih]
      unfold refresh
      split <;> rfl
  exact each _ _ _

theorem DrawTarget.stats_adopt (hotSwap kept : Bool) (program : Installed)
    (status : ProgramStatus) : (t.adopt hotSwap kept program status).stats = t.stats := by
  cases status with
  | pending =>
    simp only [adopt]
    split <;> rfl
  | failed message =>
    simp only [adopt]
    split <;> rfl
  | ready => rfl

namespace Studio

variable {σ : Type} {b : Backend σ} {w : Studio σ} {c : CompiledGraph}

/-- The runs in which readiness is checked only of what was built: an edit, or a build without a
result, is followed by a build that gives a result before the next check. The place where programs
are compiled may come to its verdicts at any time. -/
inductive Tended (b : Backend σ) : Studio σ → Prop
  | start {w : Studio σ} : w.Opened → Tended b w
  | edit {w : Studio σ} {m : Material} : Tended b w → w.material.Edit m →
      Tended b { w with material := m, edited := true }
  | build {w : Studio σ} : Tended b w → builds w.material = true → Tended b w.build
  | fail {w : Studio σ} : Tended b w → builds w.material = false →
      Tended b { w.build with edited := true }
  | ready {w : Studio σ} (n : Nat) (mesh : Mesh) (scene : Scene) : Tended b w → w.edited = false →
      Tended b (w.ready b n mesh scene)
  | verdict {w : Studio σ} (s : σ) : Tended b w → Tended b { w with backend := s }

theorem Tended.reached (h : w.Tended b) : w.Reached b := by
  induction h with
  | start opened =>
    obtain ⟨name, options, nextId, s⟩ := opened
    exact .edit (.start name options s) rfl rfl rfl
  | edit _ edit ih =>
    rcases edit.passes with same | rfl
    · exact .edit ih same.pass same.compiled same.cache
    · exact .dispose ih
  | build _ _ ih => exact .build ih
  | fail _ _ ih => exact .edit (.build ih) rfl rfl rfl
  | ready n mesh scene _ built ih => exact .ready n mesh scene ih built
  | verdict s _ ih => exact .verdict s ih

/-- What is checked is of the current pass. -/
theorem Tended.current (h : w.Tended b) (built : w.edited = false)
    (compiled : w.material.compiled = some c) : c.pass = w.material.pass := by
  induction h with
  | start opened =>
    obtain ⟨name, options, nextId, s⟩ := opened
    cases compiled
  | edit | fail => cases built
  | @build w _ builds =>
    have fails : w.material.build.1.toOption ≠ none := by
      simpa [Studio.builds, Option.isSome_iff_ne_none] using builds
    rcases w.material.build_cases with ⟨-, failed⟩ | ⟨pass, -, ⟨-, -, failed⟩ | ⟨c', -, new, own⟩⟩
    · exact absurd failed fails
    · exact absurd failed fails
    · cases new.symm.trans compiled
      exact own.trans pass.symm
  | @ready w n mesh scene _ _ ih =>
    obtain ⟨cache, same⟩ := w.material.material_ready b (w.targets n) mesh scene w.backend
    have same : (w.ready b n mesh scene).material = { w.material with cache } := same
    rw [same] at compiled ⊢
    exact ih built compiled
  | verdict s _ ih => exact ih built compiled

/-- A search for the program of a target goes down the ladder of its defines. The steps of the
ladder are the ranks that the blocks with fallbacks add for the defines, in increasing order, each
with the defines that these blocks add for it. At most one program is handed over for each define
set, every step that is taken is counted, and the target keeps its defines. -/
theorem search_descends (hw : w.Tended b) (built : w.edited = false)
    (compiled : w.material.compiled = some c) (n : Nat) (mesh : Mesh) (scene : Scene) :
    let m := w.material
    let t := m.prepared c (w.targets n) mesh scene
    let d := t.defines.markProcessed
    let chain := c.fallbackChain m.graph d
    let start : Trial σ :=
      { cache := m.cache, backend := w.backend, stats := (t.refreshAll c m.graph).stats }
    let found := m.search b c t w.backend
    let after := (m.specialize b c t w.backend).target
    (chain.Ranked ∧ (∀ s ∈ chain.steps, chain.names s.1 = s.2) ∧
      ∀ rank name, name ∈ chain.names rank ↔
        ∃ block ∈ c.participants m.graph .fallbacks,
          name ∈ (block.kind.fallbacks d {}).names rank) ∧
    (∃ tries : List Try,
      Trial.Descent b c m.graph (d.ladder chain.steps) start tries found.1.1 found.1.2 found.2 ∧
      (tries.flatMap Try.calls).countP Backend.Call.isCreate ≤ chain.steps.length + 1 ∧
      after.stats.fallbacksApplied + 1 = t.stats.fallbacksApplied + tries.length) ∧
    after.defines.values = t.defines.values := by
  intro m t d chain start found after
  have sound := hw.reached.sound
  have pass : c.pass = m.pass := hw.current built compiled
  have tracks := CompiledGraph.tracks_prepareDefines (sound.named built c compiled) mesh
    scene ((w.targets n).moveTo c.pass).defines
  have tidy : t.defines.Tidy :=
    tracks.tidy ((sound.tidy n).of_values (DrawTarget.values_moveTo _ _))
  have spliced : t.Spliced c m.graph :=
    (DrawTarget.spliced_moveTo (sound.spliced built c compiled pass n)).of_tracks tracks rfl
      rfl
  have refreshed := t.refreshed_refreshAll c m.graph
  have same : (t.refreshAll c m.graph).fills.Same (c.spliceAll m.graph d) := by
    have afresh := spliced.same_refreshAll
    rw [refreshed.defines] at afresh
    exact afresh
  obtain ⟨tries, descent⟩ : ∃ tries : List Try, Trial.Descent b c m.graph (d.ladder chain.steps)
      start tries found.1.1 found.1.2 found.2 := by
    have search :
        found = start.attempt b c m.graph chain.steps d (t.refreshAll c m.graph).fills := by
      show m.search b c t w.backend = _
      rw [Material.search, refreshed.defines]
    rw [search]
    exact Trial.exists_descent (tidy.of_values rfl) (c.words_fallbackChain _ _) same
      (sound.fresh built c compiled pass)
  have stats : after.stats = found.2.stats := DrawTarget.stats_adopt _ _ _ _ _
  have values : after.defines.values = (t.refreshAll c m.graph).defines.values :=
    (DrawTarget.akin_adopt _ _ _ _ _).values
  refine ⟨⟨c.ranked_fallbackChain m.graph d,
      fun s hs => (c.ranked_fallbackChain m.graph d).names_eq hs,
      c.mem_names_fallbackChain m.graph d⟩, ⟨tries, descent, ?_, ?_⟩, ?_⟩
  · exact descent.creates_le.trans (DefineSet.length_ladder d chain.steps).le
  · rw [stats, descent.fallbacks]
    exact congrArg (· + _) (t.fallbacksApplied_refreshAll c m.graph)
  · rw [values, refreshed.defines]
    rfl

/-! ## 5. A fog that is given up -/

open Relation

theorem Tended.edits (hw : w.Tended b) (edited : w.edited = true) {m : Material}
    (h : ReflTransGen Material.Edit w.material m) :
    Tended b { w with material := m, edited := true } := by
  induction h with
  | refl => exact edited ▸ hw
  | tail _ edit ih => exact .edit (w := { w with material := _, edited := true }) ih edit

theorem edits_foggy (s : σ) : ReflTransGen Material.Edit (empty s).material .foggy := by
  have blocks : ReflTransGen Material.Edit (empty s).material .unfogged :=
    ((((edits_loose s).tail (.addBlock _ "fog" (.fog {}) nofun)).tail
      (.addBlock _ "position" (.input (.ofAttribute "position" .vector4)) nofun)).tail
      (.addBlock _ "view" (.input (.ofSystem .view)) nofun)).tail
      (.addBlock _ "fogColor" (.input (.ofSystem .fogColor)) nofun)
  have output := edits_connectAll blocks [(⟨⟨1⟩, 0⟩, ⟨⟨3⟩, 2⟩), (⟨⟨4⟩, 0⟩, ⟨⟨3⟩, 0⟩),
    (⟨⟨5⟩, 0⟩, ⟨⟨3⟩, 1⟩), (⟨⟨6⟩, 0⟩, ⟨⟨3⟩, 3⟩), (⟨⟨1⟩, 0⟩, ⟨⟨2⟩, 0⟩)]
    Material.foggy.graph (by cbv)
  exact output.tail (.addRoot (show Material.addRoot _ ⟨3⟩ = .ok .foggy from rfl))

/-- The particle is built, and programs with fog will be rejected. -/
def fogless : Studio Scripted :=
  ({ material := .foggy, backend := { reject := ["FOG"] } } : Studio Scripted).build

theorem fogless_search_descends :
    fogless.Tended .scripted ∧ fogless.edited = false ∧ ∃ c, fogless.material.compiled = some c ∧
      let m := fogless.material
      let t := m.prepared c {} {} { fog := some {} }
      let d := t.defines.markProcessed
      let found := m.search .scripted c t fogless.backend
      ∃ tries : List Try, tries.length = 2 ∧
        Trial.Descent .scripted c m.graph (d.ladder (c.fallbackChain m.graph d).steps)
          { cache := m.cache, backend := fogless.backend, stats := (t.refreshAll c m.graph).stats }
          tries found.1.1 found.1.2 found.2 := by
  let b : Scripted := { reject := ["FOG"] }
  obtain ⟨c, m', e, h, -, -, hc, graph, found⟩ := Material.exists_build_within (m := .foggy) 12 rfl
    (p := fun e => (Material.finish { Material.foggy with pass := Material.foggy.pass.next }
      e).toOption.all fun c =>
        let m : Material := { Material.foggy with graph := e.graph }
        (m.search .scripted c (m.prepared c {} {} { fog := some {} })
          { reject := ["FOG"] }).2.stats.fallbacksApplied == 1)
    (by decide +kernel) (by decide +kernel)
  have material : fogless.material = m' := congrArg Prod.snd h
  have builds : builds .foggy = true := by
    rw [Studio.builds, h]
    rfl
  have built : fogless.edited = false := by
    show (true && !Studio.builds Material.foggy) = false
    rw [builds]
    rfl
  have tended : fogless.Tended .scripted :=
    .build (Tended.edits (.start (opened_empty b)) rfl (edits_foggy b)) builds
  obtain ⟨compiled, kept⟩ := Material.compiled_of_build h
  -- What is found depends on the graph and on the programs that are kept, of which there are none.
  have fellBack : (fogless.material.search .scripted c
      (fogless.material.prepared c {} {} { fog := some {} }) b).2.stats.fallbacksApplied = 1 := by
    have cache : m'.cache = Material.foggy.cache :=
      congrArg ProgramCache.mk (List.subset_nil.mp kept)
    rw [hc] at found
    simp only [material, Material.search, Material.prepared, graph, cache]
    exact beq_iff_eq.mp found
  obtain ⟨-, ⟨tries, descent, -, -⟩, -⟩ :=
    search_descends tended built (material ▸ compiled) 0 {} { fog := some {} }
  refine ⟨tended, built, c, material ▸ compiled, tries, ?_, descent⟩
  have count : (fogless.material.search .scripted c
      (fogless.material.prepared c {} {} { fog := some {} }) b).2.stats.fallbacksApplied + 1 =
      ((fogless.material.prepared c {} {} { fog := some {} }).refreshAll c
        fogless.material.graph).stats.fallbacksApplied + tries.length := descent.fallbacks
  have idle : (({} : DrawTarget).moveTo c.pass).stats.fallbacksApplied = 0 := by
    unfold DrawTarget.moveTo
    split <;> rfl
  rw [fellBack, DrawTarget.fallbacksApplied_refreshAll, Material.prepared, idle,
    Nat.zero_add] at count
  exact count.symm

end Studio

end ShaderGraph
