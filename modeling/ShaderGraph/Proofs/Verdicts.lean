import Mathlib.Data.List.Nodup
import ShaderGraph.Program.Backend

/-!
# Verdicts that come later

The owner of a `Deferred` and its worker take their turns in any order. The owner hands programs
over, asks for them, releases them and, while it waits, takes over one result at a time; the worker
does one job after the other. `Deferred.History` is a state with the numbers that the programs got.

A program that waits for its verdict is in flight, once, as a job or as a result. One that has its
verdict is not in flight, so that nothing arrives that could change it (`History.Sound`). Every turn
keeps this, hence no order of turns loses a verdict, mixes two up or waits in vain
(`Deferred.verdicts_settle_once`).
-/

namespace ShaderGraph

open List Statuses

/-! ## 1. What is known of the programs -/

namespace Statuses

variable {s : Statuses} {h k : ProgramHandle} {status : ProgramStatus}
  {e : ProgramHandle × ProgramStatus}

theorem find?_cons (e : ProgramHandle × ProgramStatus) (s : Statuses) (k : ProgramHandle) :
    Statuses.find? (e :: s) k = if k = e.1 then some e.2 else s.find? k := by
  obtain ⟨h, status⟩ := e
  unfold find?
  by_cases same : k = h
  · rw [if_pos same, same, lookup_cons_self]
  · rw [if_neg same, lookup_cons, beq_false_of_ne same]

theorem mem_of_find? (found : s.find? h = some status) : (h, status) ∈ s := by
  induction s with
  | nil => cases found
  | cons e rest ih =>
    rw [find?_cons] at found
    split at found
    · rename_i same
      cases found
      exact same ▸ mem_cons_self
    · exact mem_cons_of_mem _ (ih found)

theorem find?_append_of_ne (ne : k ≠ h) : Statuses.find? (s ++ [(h, status)]) k = s.find? k := by
  induction s with
  | nil => rw [nil_append, find?_cons, if_neg ne]
  | cons e rest ih => rw [cons_append, find?_cons, find?_cons, ih]

theorem find?_record : (s.record h status).find? k =
    if k = h then (s.find? k).map fun _ => status else s.find? k := by
  induction s with
  | nil => cases decEq k h <;> simp_all [record, find?]
  | cons e rest ih =>
    show Statuses.find?
      ((if e.1 = h then (h, status) else e) :: Statuses.record rest h status) k = _
    rw [find?_cons, find?_cons, ih]
    grind

theorem find?_erase : (s.erase h).find? k = if k = h then none else s.find? k := by
  induction s with
  | nil => cases decEq k h <;> simp_all [erase, find?]
  | cons e rest ih =>
    unfold erase at ih ⊢
    rw [filter_cons, find?_cons]
    split
    · rw [find?_cons, ih]
      grind
    · rw [ih]
      grind

theorem mem_record (he : e ∈ s.record h status) :
    (e ∈ s ∧ e.1 ≠ h) ∨ e = (h, status) := by
  obtain ⟨old, hold, rfl⟩ := mem_map.mp he
  split
  · exact .inr rfl
  · exact .inl ⟨hold, by assumption⟩

theorem map_fst_record : (s.record h status).map Prod.fst = s.map Prod.fst := by
  unfold record
  rw [map_map]
  refine map_congr_left fun e _ => ?_
  show (if e.1 = h then (h, status) else e).1 = e.1
  split
  · exact Eq.symm (by assumption)
  · rfl

end Statuses

theorem Verdict.ofCheck_ne_pending (check : ProgramSource → Except String Unit)
    (source : ProgramSource) : Verdict.ofCheck check source ≠ .pending := by
  unfold Verdict.ofCheck
  cases check source <;> simp

namespace Deferred

variable (judge : Verdict) (s : Deferred)

/-- The programs in flight: those that wait for the worker and those whose results wait for the
owner. -/
def inFlight (s : Deferred) : List ProgramHandle := s.jobs.map Prod.fst ++ s.results.map Prod.fst

theorem drain_induction {P : Deferred → Prop} (step : ∀ s, P s → P s.receive) {s : Deferred}
    (hs : P s) : P s.drain := by
  match arrived : s.results with
  | [] =>
    have idle : s.drain = s := by
      cases s
      cases arrived
      rfl
    exact idle ▸ hs
  | e :: rest =>
    have first : s.drain = s.receive.drain := by simp [drain, receive, arrived]
    have shorter : s.receive.results.length < s.results.length := by simp [receive, arrived]
    exact first ▸ drain_induction step (step s hs)
termination_by s.results.length

theorem statuses_work : (s.work judge).statuses = s.statuses := by
  unfold work
  split <;> rfl

theorem map_fst_receive : s.receive.statuses.map Prod.fst = s.statuses.map Prod.fst := by
  unfold receive
  split
  · rfl
  · exact map_fst_record

theorem waitIdle_induction {P : Deferred → Prop} {judge : Verdict}
    (receive : ∀ s, P s → P s.receive) (work : ∀ s, P s → P (s.work judge)) {s : Deferred}
    (hs : P s) : P (s.waitIdle judge) := by
  fun_induction waitIdle judge s with
  | case1 s busy e results arrived shorter ih => exact ih (receive s hs)
  | case2 s busy job jobs waiting arrived shorter ih => exact ih (work s hs)
  | case3 s busy waiting arrived => exact hs
  | case4 s idle => exact hs

/-- A wait gives statuses to the programs that are known, and leaves which those are. -/
theorem map_fst_waitIdle : (s.waitIdle judge).statuses.map Prod.fst = s.statuses.map Prod.fst :=
  waitIdle_induction (P := fun t => t.statuses.map Prod.fst = s.statuses.map Prod.fst)
    (fun t ht => (map_fst_receive t).trans ht)
    (fun t ht => (congrArg (List.map Prod.fst) (statuses_work judge t)).trans ht) rfl

/-- A wait that ends with programs left that wait for their verdicts has been in vain. -/
theorem inFlight_waitIdle (busy : (s.waitIdle judge).isBusy = true) :
    (s.waitIdle judge).inFlight = [] := by
  fun_induction waitIdle judge s with
  | case1 s _ e results arrived shorter ih => exact ih busy
  | case2 s _ job jobs waiting arrived shorter ih => exact ih busy
  | case3 s _ waiting arrived => simp [inFlight, waiting, arrived]
  | case4 s idle => exact absurd busy idle

/-! ## 2. Histories -/

/-- A turn of the owner or of the worker. The owner takes over a single result while it waits. -/
inductive Event where
  | create (source : ProgramSource)
  | poll (h : ProgramHandle)
  | release (h : ProgramHandle)
  | work
  | receive
deriving DecidableEq

/-- A state, and the programs that were handed over with the numbers that they got. -/
structure History where
  state : Deferred := {}
  created : List (ProgramHandle × ProgramSource) := []

namespace History

def step (judge : Verdict) (r : History) : Event → History
  | .create source =>
    let (h, state) := Backend.deferred.create source r.state
    { state, created := r.created ++ [(h, source)] }
  | .poll h => { r with state := (Backend.deferred.poll h r.state).2 }
  | .release h => { r with state := Backend.deferred.release h r.state }
  | .work => { r with state := r.state.work judge }
  | .receive => { r with state := r.state.receive }

def after (judge : Verdict) (r : History) (es : List Event) : History := es.foldl (step judge) r

def handles (r : History) : List ProgramHandle := r.created.map Prod.fst

variable {judge : Verdict} {r : History} {h : ProgramHandle} {status : ProgramStatus}

/-- What is true at all times. Jobs and results belong to programs that were handed over, each
program is in flight once at most, and the programs in flight are those without a verdict among the
programs that are known. -/
structure Sound (judge : Verdict) (r : History) : Prop where
  counted : ∀ h ∈ r.handles, h.index ≤ r.state.next
  distinct : r.handles.Nodup
  jobs : ∀ e ∈ r.state.jobs, e ∈ r.created
  results : ∀ e ∈ r.state.results, ∃ source, (e.1, source) ∈ r.created ∧ e.2 = judge source
  single : r.state.inFlight.Nodup
  known : ∀ e ∈ r.state.statuses, ∃ source, (e.1, source) ∈ r.created ∧
    ((e.2 = .pending ∧ e.1 ∈ r.state.inFlight) ∨
      (e.2 = judge source ∧ e.1 ∉ r.state.inFlight))

namespace Sound

section

variable (hr : r.Sound judge)
include hr

theorem handed (flying : h ∈ r.state.inFlight) : h ∈ r.handles := by
  rcases mem_append.mp flying with job | result
  · obtain ⟨e, he, rfl⟩ := mem_map.mp job
    exact mem_map_of_mem (hr.jobs e he)
  · obtain ⟨e, he, rfl⟩ := mem_map.mp result
    obtain ⟨source, made, -⟩ := hr.results e he
    exact mem_map_of_mem made

theorem fresh : (⟨r.state.next + 1⟩ : ProgramHandle) ∉ r.handles := by
  intro used
  have bound : r.state.next + 1 ≤ r.state.next := hr.counted _ used
  omega

theorem create (source : ProgramSource) : (r.step judge (.create source)).Sound judge := by
  have free : (⟨r.state.next + 1⟩ : ProgramHandle) ∉ r.state.inFlight :=
    fun flying => hr.fresh (hr.handed flying)
  have flight : ∀ h, h ∈ (r.step judge (.create source)).state.inFlight ↔
      h ∈ r.state.inFlight ∨ h = ⟨r.state.next + 1⟩ := by
    intro h
    simp only [step, Backend.deferred, inFlight, map_append, map_cons, map_nil,
      mem_append, mem_singleton]
    exact or_right_comm
  have old : ∀ {e}, e ∈ r.created → e ∈ (r.step judge (.create source)).created :=
    fun he => mem_append_left _ he
  refine
    { counted := fun h hh => ?_, distinct := ?_, jobs := fun e he => ?_, results := fun e he => ?_
      single := ?_, known := fun e he => ?_ }
  · simp only [handles, step, Backend.deferred, map_append, mem_append, map_cons,
      map_nil, mem_singleton] at hh ⊢
    rcases hh with hh | rfl
    · exact Nat.le_succ_of_le (hr.counted h hh)
    · exact Nat.le_refl _
  · simp only [handles, step, Backend.deferred, map_append, map_cons, map_nil]
    exact nodup_append.mpr ⟨hr.distinct, nodup_singleton _, fun a ha b hb same =>
      hr.fresh (mem_singleton.mp hb ▸ same ▸ ha)⟩
  · rcases mem_append.mp he with he | he
    · exact old (hr.jobs e he)
    · exact mem_append_right _ he
  · obtain ⟨made, hmade, verdict⟩ := hr.results e he
    exact ⟨made, old hmade, verdict⟩
  · have move : (r.step judge (.create source)).state.inFlight.Perm
        (⟨r.state.next + 1⟩ :: r.state.inFlight) := by
      simp only [step, Backend.deferred, inFlight, map_append, map_cons, map_nil,
        append_assoc, cons_append, nil_append]
      exact perm_middle
    exact move.nodup_iff.mpr (nodup_cons.mpr ⟨free, hr.single⟩)
  · rcases mem_append.mp he with he | he
    · obtain ⟨made, hmade, state⟩ := hr.known e he
      refine ⟨made, old hmade, state.imp (fun w => ⟨w.1, (flight _).mpr (.inl w.2)⟩) fun w =>
        ⟨w.1, fun flying => ?_⟩⟩
      rcases (flight _).mp flying with flying | same
      · exact w.2 flying
      · exact hr.fresh (same ▸ mem_map_of_mem hmade)
    · cases mem_singleton.mp he
      exact ⟨source, mem_append_right _ (mem_singleton.mpr rfl),
        .inl ⟨rfl, (flight _).mpr (.inr rfl)⟩⟩

theorem release (h : ProgramHandle) : (r.step judge (.release h)).Sound judge :=
  { hr with known := fun e he => hr.known e (mem_filter.mp he).1 }

theorem work : (r.step judge .work).Sound judge := by
  match waiting : r.state.jobs with
  | [] =>
    have idle : r.step judge .work = r := by simp [step, Deferred.work, waiting]
    exact idle.symm ▸ hr
  | (h, source) :: jobs =>
    have after : (r.step judge .work).state =
        { r.state with jobs, results := r.state.results ++ [(h, judge source)] } := by
      simp [step, Deferred.work, waiting]
    have move : (r.step judge .work).state.inFlight.Perm r.state.inFlight := by
      rw [after]
      simp only [inFlight, waiting, map_append, map_cons, map_nil]
      rw [← append_assoc]
      exact perm_append_singleton _ _
    refine { counted := ?_, distinct := hr.distinct, jobs := ?_, results := ?_, single := ?_,
             known := ?_ }
    · rw [after]
      exact hr.counted
    · rw [after]
      exact fun e he => hr.jobs e (waiting ▸ mem_cons_of_mem _ he)
    · rw [after]
      intro e he
      rcases mem_append.mp he with he | he
      · exact hr.results e he
      · cases mem_singleton.mp he
        exact ⟨source, hr.jobs _ (waiting ▸ mem_cons_self), rfl⟩
    · exact move.nodup_iff.mpr hr.single
    · intro e he
      rw [after] at he
      simp only [move.mem_iff]
      exact hr.known e he

theorem receive : (r.step judge .receive).Sound judge := by
  match arrived : r.state.results with
  | [] =>
    have idle : r.step judge .receive = r := by simp [step, Deferred.receive, arrived]
    exact idle.symm ▸ hr
  | (h, status) :: results =>
    have after : (r.step judge .receive).state =
        { r.state with results, statuses := r.state.statuses.record h status } := by
      simp [step, Deferred.receive, arrived]
    -- the result that is taken over was the only thing in flight for its program
    have move : r.state.inFlight.Perm (h :: (r.step judge .receive).state.inFlight) := by
      rw [after]
      simp only [inFlight, arrived, map_cons]
      exact perm_middle
    have single := move.nodup_iff.mp hr.single
    refine { counted := ?_, distinct := hr.distinct, jobs := ?_, results := ?_, single := ?_,
             known := ?_ }
    · rw [after]
      exact hr.counted
    · rw [after]
      exact hr.jobs
    · rw [after]
      exact fun e he => hr.results e (arrived ▸ mem_cons_of_mem _ he)
    · exact (nodup_cons.mp single).2
    · intro e he
      rw [after] at he
      rcases mem_record he with ⟨he, other⟩ | rfl
      · obtain ⟨source, made, state⟩ := hr.known e he
        refine ⟨source, made, state.imp (fun w => ⟨w.1, ?_⟩) fun w => ⟨w.1, fun flying => ?_⟩⟩
        · exact (mem_cons.mp (move.mem_iff.mp w.2)).resolve_left other
        · exact w.2 (move.mem_iff.mpr (mem_cons_of_mem _ flying))
      · obtain ⟨source, made, verdict⟩ := hr.results (h, status) (arrived ▸ mem_cons_self)
        exact ⟨source, made, .inr ⟨verdict, (nodup_cons.mp single).1⟩⟩

end

/-- Taking over what has arrived is a number of turns that each take over one result. -/
theorem step_poll {P : History → Prop} (turn : ∀ r, P r → P (r.step judge .receive)) (hr : P r)
    (h : ProgramHandle) : P (r.step judge (.poll h)) :=
  drain_induction (P := fun s => P { r with state := s })
    (fun s hs => turn { r with state := s } hs)
    hr

theorem step (hr : r.Sound judge) (e : Event) : (r.step judge e).Sound judge := by
  cases e with
  | create source => exact hr.create source
  | poll h => exact step_poll (fun _ hr => hr.receive) hr h
  | release h => exact hr.release h
  | work => exact hr.work
  | receive => exact hr.receive

theorem after (hr : r.Sound judge) (es : List Event) : (r.after judge es).Sound judge := by
  induction es generalizing r with
  | nil => exact hr
  | cons e rest ih => exact ih (hr.step e)

theorem empty (judge : Verdict) : ({} : History).Sound judge where
  counted h hh := by cases hh
  distinct := nodup_nil
  jobs e he := by cases he
  results e he := by cases he
  single := nodup_nil
  known e he := by cases he

/-- A wait is a number of turns of the owner and the worker. -/
theorem waitIdle (hr : r.Sound judge) :
    ({ r with state := r.state.waitIdle judge } : History).Sound judge :=
  waitIdle_induction (P := fun s => ({ r with state := s } : History).Sound judge)
    (fun _ hs => hs.receive) (fun _ hs => hs.work) hr

/-- A wait is not in vain: what it waits for is in flight. -/
theorem idle_waitIdle (hr : r.Sound judge) (final : ∀ source, judge source ≠ .pending) :
    (r.state.waitIdle judge).isBusy = false := by
  rw [← Bool.not_eq_true]
  intro busy
  obtain ⟨e, he, waits⟩ := any_eq_true.mp busy
  have none : (r.state.waitIdle judge).inFlight = [] := inFlight_waitIdle judge r.state busy
  obtain ⟨source, -, ⟨-, flying⟩ | ⟨verdict, -⟩⟩ := hr.waitIdle.known e he
  · exact not_mem_nil (none ▸ flying)
  · exact final source (verdict ▸ of_decide_eq_true waits)

theorem count_inFlight (hr : r.Sound judge) (final : ∀ source, judge source ≠ .pending)
    (found : r.state.statuses.find? h = some .pending) : r.state.inFlight.count h = 1 := by
  obtain ⟨source, -, ⟨-, flying⟩ | ⟨verdict, -⟩⟩ := hr.known _ (mem_of_find? found)
  · exact count_eq_one_of_mem hr.single flying
  · exact absurd verdict.symm (final source)

theorem verdict_of_find? (hr : r.Sound judge) (found : r.state.statuses.find? h = some status)
    (settled : status ≠ .pending) :
    h ∉ r.state.inFlight ∧ ∃ source, (h, source) ∈ r.created ∧ status = judge source := by
  obtain ⟨source, made, ⟨waits, -⟩ | ⟨verdict, landed⟩⟩ := hr.known _ (mem_of_find? found)
  · exact absurd waits settled
  · exact ⟨landed, source, made, verdict⟩

end Sound

/-! ## 3. What stays -/

theorem find?_receive (flying : h ∉ r.state.inFlight) :
    (r.step judge .receive).state.statuses.find? h = r.state.statuses.find? h := by
  match arrived : r.state.results with
  | [] => simp [step, Deferred.receive, arrived]
  | (k, verdict) :: results =>
    have other : h ≠ k := by
      rintro rfl
      exact flying (mem_append_right _ (by simp [arrived]))
    simp [step, Deferred.receive, arrived, find?_record, other]

/-- A verdict stays for as long as its program is known. -/
theorem settled_step (hr : r.Sound judge) (settled : status ≠ .pending)
    (found : r.state.statuses.find? h = some status) {e : Event} (kept : e ≠ .release h) :
    (r.step judge e).state.statuses.find? h = some status := by
  have turn : ∀ r : History, r.Sound judge ∧ r.state.statuses.find? h = some status →
      (r.step judge .receive).Sound judge ∧
        (r.step judge .receive).state.statuses.find? h = some status :=
    fun r hr => ⟨hr.1.receive,
      (find?_receive (hr.1.verdict_of_find? hr.2 settled).1).trans hr.2⟩
  cases e with
  | create source =>
    obtain ⟨-, made, hmade, -⟩ := hr.verdict_of_find? found settled
    have new : h ≠ ⟨r.state.next + 1⟩ := by
      rintro rfl
      exact hr.fresh (mem_map_of_mem hmade)
    exact (find?_append_of_ne new).trans found
  | poll k => exact (Sound.step_poll turn ⟨hr, found⟩ k).2
  | release k =>
    have other : h ≠ k := fun same => kept (same ▸ rfl)
    show (r.state.statuses.erase k).find? h = _
    rw [find?_erase, if_neg other, found]
  | work => exact (congrArg (Statuses.find? · h) (statuses_work judge r.state)).trans found
  | receive => exact (turn r ⟨hr, found⟩).2

/-- The program was handed over and is not known any more. -/
def Forgotten (r : History) (h : ProgramHandle) : Prop :=
  h ∈ r.handles ∧ r.state.statuses.find? h = none

/-- What arrives for a program that is not known is dropped. -/
theorem Forgotten.step (gone : r.Forgotten h) (hr : r.Sound judge) (e : Event) :
    (r.step judge e).Forgotten h := by
  have turn : ∀ r : History, r.Forgotten h → (r.step judge .receive).Forgotten h := by
    intro r gone
    refine ⟨gone.1, ?_⟩
    match arrived : r.state.results with
    | [] => simp [History.step, Deferred.receive, arrived, gone.2]
    | (k, verdict) :: results =>
      simp [History.step, Deferred.receive, arrived, find?_record, gone.2]
  cases e with
  | create source =>
    have new : h ≠ ⟨r.state.next + 1⟩ := by
      rintro rfl
      exact hr.fresh gone.1
    refine ⟨?_, (find?_append_of_ne new).trans gone.2⟩
    show h ∈ (r.created ++ [_]).map Prod.fst
    rw [map_append]
    exact mem_append_left _ gone.1
  | poll k => exact Sound.step_poll turn gone k
  | release k =>
    refine ⟨gone.1, ?_⟩
    show (r.state.statuses.erase k).find? h = none
    rw [find?_erase, gone.2, ite_self]
  | work => exact ⟨gone.1,
      (congrArg (Statuses.find? · h) (statuses_work judge r.state)).trans gone.2⟩
  | receive => exact turn r gone

theorem Forgotten.after (gone : r.Forgotten h) (hr : r.Sound judge) (es : List Event) :
    (r.after judge es).Forgotten h := by
  induction es generalizing r with
  | nil => exact gone
  | cons e rest ih => exact ih (gone.step hr e) (hr.step e)

/-- Whoever asks for such a program is told that it is unknown. -/
theorem Forgotten.poll (gone : r.Forgotten h) (hr : r.Sound judge) :
    (Backend.deferred.poll h r.state).1 = .failed ("unknown program " ++ toString h.index) := by
  have still : r.state.drain.statuses.find? h = none := (gone.step hr (.poll h)).2
  show r.state.drain.statuses.answer h = _
  rw [Statuses.answer, still]
  rfl

theorem settled_after (hr : r.Sound judge) (settled : status ≠ .pending)
    (found : r.state.statuses.find? h = some status) {es : List Event}
    (kept : Event.release h ∉ es) :
    (r.after judge es).state.statuses.find? h = some status := by
  induction es generalizing r with
  | nil => exact found
  | cons e rest ih =>
    rw [mem_cons, not_or] at kept
    exact ih (hr.step e) (settled_step hr settled found (Ne.symm kept.1)) kept.2

end History

/-- After any turns of the owner and the worker: no two programs have got the same number, a program
that waits for its verdict is in flight exactly once, and a wait ends with a verdict for every
program that is known. A verdict is that of the text of its own program, and it stays for as long as
the program is not released. A program that was released is unknown for good, whatever arrives. -/
theorem verdicts_settle_once (check : ProgramSource → Except String Unit) (es later : List Event) :
    let judge := Verdict.ofCheck check
    let r := History.after judge {} es
    r.handles.Nodup ∧
    (∀ h, r.state.statuses.find? h = some .pending → r.state.inFlight.count h = 1) ∧
    ((r.state.waitIdle judge).isBusy = false ∧
      (r.state.waitIdle judge).statuses.map Prod.fst = r.state.statuses.map Prod.fst) ∧
    (∀ h status, r.state.statuses.find? h = some status → status ≠ .pending →
      (∃ source, (h, source) ∈ r.created ∧ status = judge source) ∧
      (Event.release h ∉ later →
        (r.after judge later).state.statuses.find? h = some status)) ∧
    ∀ h ∈ r.handles,
      (Backend.deferred.poll h ((r.step judge (.release h)).after judge later).state).1 =
        .failed ("unknown program " ++ toString h.index) := by
  intro judge r
  have final : ∀ source, judge source ≠ .pending := Verdict.ofCheck_ne_pending check
  have hr : r.Sound judge := (History.Sound.empty judge).after es
  refine ⟨hr.distinct, fun h found => hr.count_inFlight final found,
    ⟨hr.idle_waitIdle final, map_fst_waitIdle judge r.state⟩, fun h status found settled =>
      ⟨(hr.verdict_of_find? found settled).2, fun kept =>
        History.settled_after hr settled found kept⟩, fun h made => ?_⟩
  have gone : (r.step judge (.release h)).Forgotten h := by
    refine ⟨made, ?_⟩
    show (r.state.statuses.erase h).find? h = none
    rw [Statuses.find?_erase, if_pos rfl]
  exact (gone.after (hr.release h) later).poll ((hr.release h).after later)

def asksForVertex (source : ProgramSource) : Except String Unit :=
  if source.vertex.isEmpty then .error "empty" else .ok ()

/-- The first program has its verdict, the other two are still jobs. -/
def opening : List Event :=
  [.create ⟨.wgsl, "v", "f", ""⟩, .create ⟨.wgsl, "", "f", ""⟩, .work, .poll ⟨1⟩,
    .create ⟨.wgsl, "v", "", ""⟩]

/-- The worker does both jobs, and the results are taken over. -/
def closing : List Event := [.work, .receive, .work, .poll ⟨3⟩]

theorem opening_verdicts_settle_once :
    let judge := Verdict.ofCheck asksForVertex
    let r := History.after judge {} opening
    (r.state.statuses.find? ⟨2⟩ = some .pending ∧ r.state.inFlight.count ⟨2⟩ = 1) ∧
    (r.state.waitIdle judge).isBusy = false ∧
    (r.state.statuses.find? ⟨1⟩ = some .ready ∧
      (∃ source, (⟨1⟩, source) ∈ r.created ∧ .ready = judge source) ∧
      Event.release ⟨1⟩ ∉ closing ∧
      (r.after judge closing).state.statuses.find? ⟨1⟩ = some .ready) ∧
    ⟨2⟩ ∈ r.handles ∧
    (Backend.deferred.poll ⟨2⟩ ((r.step judge (.release ⟨2⟩)).after judge closing).state).1 =
      .failed ("unknown program " ++ toString 2) := by
  intro judge r
  obtain ⟨-, flying, ⟨idle, -⟩, settled, released⟩ :=
    verdicts_settle_once asksForVertex opening closing
  have waits : r.state.statuses.find? ⟨2⟩ = some .pending := by decide
  have judged : r.state.statuses.find? ⟨1⟩ = some .ready := by decide
  have kept : Event.release ⟨1⟩ ∉ closing := by decide
  have made : ⟨2⟩ ∈ r.handles := by decide
  obtain ⟨own, stays⟩ := settled ⟨1⟩ .ready judged (by decide)
  exact ⟨⟨waits, flying ⟨2⟩ waits⟩, idle, ⟨judged, own, kept, stays kept⟩, made,
    released ⟨2⟩ made⟩

end Deferred

end ShaderGraph
