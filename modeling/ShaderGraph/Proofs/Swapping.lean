import ShaderGraph.Proofs.Runs

/-!
# Programs that stay in use

While programs are swapped in use, a target keeps the program that it has until a better one is
ready. `DrawTarget.Usable` says that the program in use is ready, and
`Studio.hot_swap_keeps_ready` that it stays so: through other meshes and scenes, further passes,
programs that take their time and programs that fail. The place where programs are compiled has to
stand by what it said (`Backend.Lasting`); it may come to its verdicts at any time.
-/

namespace ShaderGraph

open List Material Nat Backend

namespace Backend

variable {σ : Type} {b : Backend σ} {drift : σ → σ → Prop} {sane : σ → Prop}
  {known : σ → ProgramHandle → Prop}

/-- What is `known` of a program stays true, in any state that the place gets into. -/
structure Retains (b : Backend σ) (drift : σ → σ → Prop) (sane : σ → Prop)
    (known : σ → ProgramHandle → Prop) : Prop where
  keeps : b.Keeps sane
  drifts : ∀ s s', drift s s' → sane s → sane s'
  create : ∀ source s h, sane s → known s h → known (b.create source s).2 h
  poll : ∀ h' s h, sane s → known s h → known (b.poll h' s).2 h
  drift : ∀ s s' h, drift s s' → sane s → known s h → known s' h

theorem Retains.keeps_known (hb : b.Retains drift sane known) (h : ProgramHandle) :
    b.Keeps fun s => sane s ∧ known s h where
  create source s hs := ⟨hb.keeps.create source s hs.1, hb.create source s h hs.1 hs.2⟩
  poll h' s hs := ⟨hb.keeps.poll h' s hs.1, hb.poll h' s h hs.1 hs.2⟩

/-- Asked now, the place says that the program of a number is ready. -/
def Ready (b : Backend σ) (s : σ) (h : ProgramHandle) : Prop := (b.poll h s).1 = .ready

/-- No program is taken back once it is ready. -/
abbrev Lasting (b : Backend σ) (drift : σ → σ → Prop) (sane : σ → Prop) : Prop :=
  b.Retains drift sane b.Ready

theorem ready_of_poll (hb : b.Lasting drift sane) {s s' : σ} {h : ProgramHandle}
    (hs : sane s) (answer : b.poll h s = (.ready, s')) : b.Ready s' h := by
  have := hb.poll h s h hs (congrArg Prod.fst answer)
  rwa [answer] at this

end Backend

/-- The target has a program, and it is ready. -/
def DrawTarget.Usable {σ : Type} (b : Backend σ) (t : DrawTarget) (s : σ) : Prop :=
  ∃ p, t.active = some p ∧ b.Ready s p.handle

namespace Material

variable {σ : Type} {b : Backend σ} {drift : σ → σ → Prop} {sane : σ → Prop} {m : Material}
  {c : CompiledGraph} {t : DrawTarget} {s : σ}

theorem activeReady_of_usable (h : t.Usable b s) : (activeReady b t s).1 = true := by
  obtain ⟨p, hp, ready⟩ := h
  simp only [activeReady, hp]
  rw [show (b.poll p.handle s).1 = .ready from ready]
  rfl

variable (hb : b.Lasting drift sane)
include hb

theorem usable_activeReady (hs : sane s) (h : t.Usable b s) : t.Usable b (activeReady b t s).2 := by
  obtain ⟨p, hp, ready⟩ := h
  exact ⟨p, hp, (keeps_activeReady (hb.keeps_known p.handle) t ⟨hs, ready⟩).2⟩

theorem usable_awaitPending (hs : sane s) (h : t.Usable b s) :
    (awaitPending b t s).1.Usable b (awaitPending b t s).2 := by
  obtain ⟨p, hp, ready⟩ := h
  unfold awaitPending
  dsimp only
  split
  · exact ⟨p, hp, ready⟩
  · rename_i q hq
    cases status : (b.poll q.handle s).1 with
    | ready => exact ⟨q, rfl, ready_of_poll hb hs (Prod.ext status rfl)⟩
    | pending => exact ⟨p, hp, hb.poll _ _ _ hs ready⟩
    | failed message => exact ⟨p, hp, hb.poll _ _ _ hs ready⟩

/-- The program in use is ready when the search is over, so it gives way to a ready one only. -/
theorem usable_specialize (swaps : m.options.hotSwap = true) (hs : sane s) (h : t.Usable b s) :
    (m.specialize b c t s).target.Usable b (m.specialize b c t s).backend := by
  obtain ⟨p, hp, ready⟩ := h
  have refreshed := t.refreshed_refreshAll c m.graph
  obtain ⟨-, s₀, ⟨sane₀, -⟩, answer⟩ :=
    found_search (m := m) (c := c) (t := t) (hb.keeps_known p.handle) ⟨hs, ready⟩
  have lasting := keeps_search (m := m) (c := c) (t := t) (hb.keeps_known p.handle) ⟨hs, ready⟩
  rw [specialize_eq]
  generalize m.search b c t s = found at answer lasting ⊢
  obtain ⟨⟨program, status⟩, trial⟩ := found
  generalize hu : ({ t.refreshAll c m.graph with stats := trial.stats } : DrawTarget) = u
  have active : u.active = some p := by
    rw [← hu]
    exact refreshed.active.trans hp
  have kept : (activeReady b u trial.backend).1 = true :=
    activeReady_of_usable ⟨p, active, lasting.2⟩
  have onward : ∀ {h}, b.Ready trial.backend h → b.Ready (activeReady b u trial.backend).2 h :=
    fun ready => (keeps_activeReady (hb.keeps_known _) u ⟨lasting.1, ready⟩).2
  rw [kept]
  cases u.adopted_adopt m.options.hotSwap true program status with
  | taken only active' _ =>
    obtain rfl := only swaps rfl
    exact ⟨program, active', onward (ready_of_poll hb sane₀ answer)⟩
  | awaited _ active' _ => exact ⟨p, active'.trans active, onward lasting.2⟩
  | refused message _ active' _ => exact ⟨p, active'.trans active, onward lasting.2⟩

/-- A check keeps a usable target usable, and says so if it gets to the programs. -/
theorem usable_ready (swaps : m.options.hotSwap = true) (hs : sane s) (h : t.Usable b s)
    (mesh : Mesh) (scene : Scene) :
    let r := m.ready b t mesh scene s
    r.target.Usable b r.backend ∧ ((∃ c, m.Serves c) → r.ready = true) := by
  by_cases serves : ∃ c, m.Serves c
  · obtain ⟨c, hc⟩ := serves
    have prepared : (m.prepared c t mesh scene).Usable b s := by
      obtain ⟨p, hp, ready⟩ := h
      exact ⟨p, (t.active_moveTo c.pass).trans hp, ready⟩
    have consulted : (m.consult b c (m.prepared c t mesh scene) s).target.Usable b
        (m.consult b c (m.prepared c t mesh scene) s).backend := by
      unfold consult
      split
      · exact usable_specialize hb swaps hs prepared
      · exact usable_awaitPending hb hs prepared
    have sane' : sane (m.consult b c (m.prepared c t mesh scene) s).backend :=
      keeps_consult hb.keeps hs
    rw [ready_of_serves hc]
    exact ⟨usable_activeReady hb sane' consulted, fun _ => activeReady_of_usable consulted⟩
  · refine ⟨?_, fun hc => absurd hc serves⟩
    obtain ⟨p, hp, ready⟩ := h
    obtain ⟨t', eq, same | ⟨c, -, same⟩⟩ :=
      ready_of_idle b t mesh scene s fun c hc => serves ⟨c, hc⟩
    · rw [eq, same]
      exact ⟨p, hp, ready⟩
    · rw [eq, same]
      exact ⟨p, (t.active_moveTo c.pass).trans hp, ready⟩

end Material

namespace Studio

open Relation

variable {σ : Type} {b : Backend σ} {drift : σ → σ → Prop} {sane : σ → Prop} {w w' : Studio σ}
  {n : Nat}

/-- A step of a run in which programs are swapped in use. -/
def Swapping (b : Backend σ) (drift : σ → σ → Prop) (w w' : Studio σ) : Prop :=
  w.material.options.hotSwap = true ∧ Handling b drift w w'

theorem usable_step (hb : b.Lasting drift sane) (hs : sane w.backend)
    (usable : (w.targets n).Usable b w.backend) (h : Swapping b drift w w') :
    sane w'.backend ∧ (w'.targets n).Usable b w'.backend := by
  obtain ⟨p, hp, ready⟩ := id usable
  obtain ⟨swaps, h⟩ := h
  cases h with
  | define k defines =>
    have same := forall_setTarget (P := fun j t => t.active = (w.targets j).active) (fun _ => rfl)
      (t := { w.targets k with defines }) rfl n
    exact ⟨hs, p, same.trans hp, ready⟩
  | move h =>
    cases h with
    | edit h => exact ⟨hs, p, hp, ready⟩
    | build => exact ⟨hs, p, hp, ready⟩
    | ready k mesh scene =>
      -- the check may be for another target, which asks the same place for programs
      have lasting := keeps_ready (m := w.material) (t := w.targets k)
        (hb.keeps_known p.handle) ⟨hs, ready⟩ mesh scene
      refine ⟨lasting.1, ?_⟩
      by_cases hk : n = k
      · subst hk
        simp only [Studio.ready, if_true]
        exact (usable_ready hb swaps hs usable mesh scene).1
      · simp only [Studio.ready, if_neg hk]
        exact ⟨p, hp, lasting.2⟩
    | bind k mesh scene =>
      obtain ⟨lastBound, target⟩ := w.material.target_bind (w.targets k) mesh scene
      have kept : (w.material.bind (w.targets k) mesh scene).2.2.active = (w.targets k).active := by
        rw [target]
      have same := forall_setTarget (P := fun j t => t.active = (w.targets j).active) (fun _ => rfl)
        kept n
      exact ⟨hs, p, same.trans hp, ready⟩
    | drift h => exact ⟨hb.drifts _ _ h hs, p, hp, hb.drift _ _ _ h hs ready⟩

theorem usable_run (hb : b.Lasting drift sane) (hs : sane w.backend)
    (usable : (w.targets n).Usable b w.backend) (h : ReflTransGen (Swapping b drift) w w') :
    sane w'.backend ∧ (w'.targets n).Usable b w'.backend := by
  induction h with
  | refl => exact ⟨hs, usable⟩
  | tail _ hstep ih => exact usable_step hb ih.1 ih.2 hstep

/-- Swapping programs in use never loses a working one: a target whose program is ready has one that
is ready ever after, and every later check that gets to the programs says that it can be drawn. -/
theorem hot_swap_keeps_ready (hb : b.Lasting drift sane) (hs : sane w.backend)
    (usable : (w.targets n).Usable b w.backend) (h : ReflTransGen (Swapping b drift) w w') :
    (w'.targets n).Usable b w'.backend ∧
      (w'.material.options.hotSwap = true → ∀ c mesh scene, w'.material.Serves c →
        (w'.material.ready b (w'.targets n) mesh scene w'.backend).ready = true) := by
  obtain ⟨hs', usable'⟩ := usable_run hb hs usable h
  refine ⟨usable', fun swaps c mesh scene serves => ?_⟩
  exact (Material.usable_ready hb swaps hs' usable' mesh scene).2 ⟨c, serves⟩

end Studio

/-! ## A place that answers as it is told -/

namespace Scripted

variable {s : Scripted} {h : ProgramHandle}

/-- Every program that is known has got its number from the place. -/
def Sane (s : Scripted) : Prop := ∀ e ∈ s.statuses, e.1.index ≤ s.next

/-- What is told later may be anything, as long as no program is taken back. -/
def Stands (s s' : Scripted) : Prop := s'.Sane ∧ ∀ h, Backend.scripted.Ready s h →
  Backend.scripted.Ready s' h

theorem ready_iff : Backend.scripted.Ready s h ↔ s.statuses.find? h = some .ready := by
  change (s.statuses.find? h).getD (.failed "unknown") = .ready ↔ _
  cases s.statuses.find? h <;> simp

theorem find?_decide {other : ProgramHandle} (apart : other ≠ h) (s : Scripted)
    (status : ProgramStatus) :
    (s.decide h status).statuses.find? other = s.statuses.find? other := by
  have foreign : (other == h) = false := beq_false_of_ne apart
  have erased : ∀ known : Statuses, (known.erase h).lookup other = known.lookup other := by
    intro known
    induction known with
    | nil => rfl
    | cons e rest ih =>
      unfold Statuses.erase at ih ⊢
      by_cases he : e.1 = h
      · rw [filter_cons_of_neg (by simp [he]), ih, lookup_cons, he, foreign]
      · rw [filter_cons_of_pos (by simp [he]), lookup_cons, lookup_cons, ih]
  change (s.statuses.erase h ++ [(h, status)]).lookup other = s.statuses.lookup other
  rw [lookup_append, erased, lookup_cons, foreign]
  exact Option.or_none

theorem lasting : Backend.scripted.Lasting Stands Sane where
  keeps :=
    { create := by
        intro source s hs e he
        rcases mem_append.mp he with he | he
        · exact le_succ_of_le (hs e (mem_of_mem_filter he))
        · exact mem_singleton.mp he ▸ le_refl _
      poll := fun _ _ hs => hs }
  drifts _ _ h _ := h.1
  create source s h hs ready := by
    rw [ready_iff] at ready ⊢
    have known : h.index ≤ s.next := by
      obtain ⟨before, after, split, -⟩ := lookup_eq_some_iff.mp ready
      exact hs (h, .ready) (split ▸ mem_append_right _ mem_cons_self)
    have apart : h ≠ ⟨s.next + 1⟩ := by
      rintro rfl
      exact absurd known (not_succ_le_self _)
    exact (find?_decide apart s (s.judge source)).trans ready
  poll _ _ _ _ ready := ready
  drift _ _ h stands _ ready := stands.2 h ready

theorem stands_defer (hs : s.Sane) : s.Stands { s with defer := true } :=
  ⟨hs, fun _ ready => ready⟩

end Scripted

theorem DrawTarget.usable_of_any {σ : Type} {b : Backend σ} {t : DrawTarget} {s : σ}
    (h : (t.active.any fun p => (b.poll p.handle s).1 == .ready) = true) : t.Usable b s := by
  cases hp : t.active with
  | none => simp [hp] at h
  | some p =>
    rw [hp, Option.any_some] at h
    exact ⟨p, hp, eq_of_beq h⟩

namespace Studio

open Relation

/-- Programs begin to take their time, and the material is built once more. -/
def delayed (w : Studio Scripted) : Studio Scripted :=
  ({ w with backend := { w.backend with defer := true } } : Studio Scripted).build

theorem run_delayed {w : Studio Scripted} (hs : w.backend.Sane)
    (swaps : w.material.options.hotSwap = true)
    (kept : w.material.build.2.options.hotSwap = true) :
    ReflTransGen (Swapping .scripted Scripted.Stands) w (w.delayed.ready .scripted 0 {} {}) := by
  have slower := ReflTransGen.single (a := w) (r := Swapping .scripted Scripted.Stands)
    ⟨swaps, .move (.drift (Scripted.stands_defer hs))⟩
  exact (slower.tail ⟨swaps, .move (.build _)⟩).tail ⟨kept, .move (.ready _ 0 {} {})⟩

/-- The particle after such a build, drawn with its old program. -/
def awaiting : Studio Scripted := drawn.delayed.ready .scripted 0 {} {}

theorem awaiting_stays_ready :
    Backend.scripted.Lasting Scripted.Stands Scripted.Sane ∧ drawn.backend.Sane ∧
      (drawn.targets 0).Usable .scripted drawn.backend ∧
      ReflTransGen (Swapping .scripted Scripted.Stands) drawn awaiting ∧
      (awaiting.targets 0).pending.isSome = true ∧
      (awaiting.targets 0).Usable .scripted awaiting.backend ∧
      (awaiting.material.ready .scripted (awaiting.targets 0) {} {} awaiting.backend).ready =
        true := by
  have sane : drawn.backend.Sane := by
    unfold Scripted.Sane
    decide +kernel
  have usable : (drawn.targets 0).Usable .scripted drawn.backend :=
    DrawTarget.usable_of_any (by decide +kernel)
  have run : ReflTransGen (Swapping .scripted Scripted.Stands) drawn awaiting :=
    run_delayed sane (by decide +kernel) (by decide +kernel)
  obtain ⟨c, serves⟩ := Material.exists_serves (m := awaiting.material) (by decide +kernel)
  obtain ⟨usable', ready⟩ := hot_swap_keeps_ready Scripted.lasting sane usable run
  exact ⟨Scripted.lasting, sane, usable, run, by decide +kernel, usable',
    ready (by decide +kernel) c {} {} serves⟩

end Studio

end ShaderGraph
