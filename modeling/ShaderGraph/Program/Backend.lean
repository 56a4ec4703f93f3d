import ShaderGraph.Program.Source
/-!
Where programs are compiled.

A `Backend` is what the rest of the library sees of such a place: it takes a program and gives it a
number, tells how far the program is, and lets go of it. Three such places are given here.

* `Backend.immediate` judges a program when it is handed over.
* `Backend.deferred` leaves the verdict to a worker that takes one job at a time.
* `Backend.scripted` answers as it is told, to try out every order of events.
-/

namespace ShaderGraph

/-- A place where programs are compiled, with its state. -/
structure Backend (σ : Type) where
  create : ProgramSource → σ → ProgramHandle × σ
  poll : ProgramHandle → σ → ProgramStatus × σ
  release : ProgramHandle → σ → σ

/-- What is known of the programs that were handed over. -/
abbrev Statuses := List (ProgramHandle × ProgramStatus)

namespace Statuses

def find? (s : Statuses) (h : ProgramHandle) : Option ProgramStatus := s.lookup h

/-- Changes the status of a program that is known. -/
def record (s : Statuses) (h : ProgramHandle) (status : ProgramStatus) : Statuses :=
  s.map fun e => if e.1 = h then (h, status) else e

def erase (s : Statuses) (h : ProgramHandle) : Statuses := s.filter fun e => e.1 ≠ h

/-- The status of a program; one that is not known has failed. -/
def answer (s : Statuses) (h : ProgramHandle) : ProgramStatus :=
  (s.find? h).getD (.failed ("unknown program " ++ toString h.index))

end Statuses

/-- Tells whether a program is good. -/
abbrev Verdict := ProgramSource → ProgramStatus

/-- The verdict of a check of the text: a program is good, or its failure has a message. -/
def Verdict.ofCheck (check : ProgramSource → Except String Unit) : Verdict := fun source =>
  match check source with
  | .ok () => .ready
  | .error message => .failed message

/-- Every program is good. -/
def Verdict.accept : Verdict := fun _ => .ready

/-! ## Judged at once -/

structure Immediate where
  next : Nat := 0
  statuses : Statuses := []
deriving Repr

def Backend.immediate (judge : Verdict) : Backend Immediate where
  create source s :=
    let h : ProgramHandle := ⟨s.next + 1⟩
    (h, { next := s.next + 1, statuses := s.statuses ++ [(h, judge source)] })
  poll h s := (s.statuses.answer h, s)
  release h s := { s with statuses := s.statuses.erase h }

/-! ## Judged by a worker -/

/-- Jobs wait for the worker and results wait for the owner, both in order of arrival. -/
structure Deferred where
  next : Nat := 0
  jobs : List (ProgramHandle × ProgramSource) := []
  results : List (ProgramHandle × ProgramStatus) := []
  statuses : Statuses := []
deriving Repr

namespace Deferred

/-- The worker takes the next job, if there is one. -/
def work (judge : Verdict) (s : Deferred) : Deferred :=
  match s.jobs with
  | [] => s
  | (h, source) :: jobs => { s with jobs, results := s.results ++ [(h, judge source)] }

/-- Takes over every result that has arrived. -/
def drain (s : Deferred) : Deferred :=
  { s with
    results := []
    statuses := s.results.foldl (fun known (h, status) => known.record h status) s.statuses }

/-- Takes over the next result, if one has arrived. -/
def receive (s : Deferred) : Deferred :=
  match s.results with
  | [] => s
  | (h, status) :: results => { s with results, statuses := s.statuses.record h status }

/-- Whether a program waits for its verdict. -/
def isBusy (s : Deferred) : Bool := s.statuses.any fun e => e.2 = .pending

/-- How many turns the worker and the owner have to take until nothing is in flight: a job is done
and its result taken over. -/
def load (s : Deferred) : Nat := 2 * s.jobs.length + s.results.length

/-- Takes over one result after the other for as long as a program waits for its verdict. Where no
result has arrived, the worker goes on meanwhile; if it has nothing to do, the wait is in vain. -/
def waitIdle (judge : Verdict) (s : Deferred) : Deferred :=
  if s.isBusy then
    match arrived : s.results, waiting : s.jobs with
    | _ :: _, _ =>
      have : s.receive.load < s.load := by simp [load, receive, arrived]
      waitIdle judge s.receive
    | [], _ :: _ =>
      have : (s.work judge).load < s.load := by simp [load, work, arrived, waiting]; omega
      waitIdle judge (s.work judge)
    | [], [] => s
  else s
termination_by s.load

end Deferred

def Backend.deferred : Backend Deferred where
  create source s :=
    let h : ProgramHandle := ⟨s.next + 1⟩
    (h, { s with
      next := s.next + 1
      jobs := s.jobs ++ [(h, source)]
      statuses := s.statuses ++ [(h, .pending)] })
  poll h s :=
    let s := s.drain
    (s.statuses.answer h, s)
  release h s := { s with statuses := s.statuses.erase h }

/-! ## Judged by a script -/

/-- A program that was handed over, with the answer it got at once. -/
structure CreatedProgram where
  handle : ProgramHandle
  source : ProgramSource
  status : ProgramStatus
deriving Repr

/-- What a script says, and what happened so far. -/
structure Scripted where
  next : Nat := 0
  statuses : Statuses := []
  /-- Whether new programs stay pending. -/
  defer : Bool := false
  /-- Texts that make a program fail when its defines contain one. -/
  reject : List String := []
  created : List CreatedProgram := []
  released : List ProgramHandle := []
deriving Repr

namespace Scripted

/-- Whether a text stands somewhere in another. -/
def occurs (needle : List Char) : List Char → Bool
  | [] => needle.isEmpty
  | c :: rest => needle.isPrefixOf (c :: rest) || occurs needle rest

/-- The answer to a new program. -/
def judge (s : Scripted) (source : ProgramSource) : ProgramStatus :=
  match s.reject.find? fun r => occurs r.toList source.defines.toList with
  | some r => .failed ("rejected " ++ r)
  | none => if s.defer then .pending else .ready

/-- Changes the status of a program. -/
def decide (s : Scripted) (h : ProgramHandle) (status : ProgramStatus) : Scripted :=
  { s with statuses := s.statuses.erase h ++ [(h, status)] }

end Scripted

def Backend.scripted : Backend Scripted where
  create source s :=
    let h : ProgramHandle := ⟨s.next + 1⟩
    let status := s.judge source
    (h, { s.decide h status with
      next := s.next + 1
      created := s.created ++ [⟨h, source, status⟩] })
  poll h s := ((s.statuses.find? h).getD (.failed "unknown"), s)
  release h s := { s with statuses := s.statuses.erase h, released := s.released ++ [h] }

end ShaderGraph
