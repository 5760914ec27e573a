import LocalVault.Library.Histories
import LocalVault.Library.WaitSet
import LocalVault.Snapshot.Pipeline

namespace LocalVault.Snapshot
open Library

/-- The thread of `create_snapshot`, and those that work on the two queues. -/
inductive Thread where
  | main
  | scanner
  | worker (index : Nat)
  | writer
  deriving DecidableEq, Repr

/-- `not_full_` and `not_empty_` of the two queues. -/
inductive Condition where
  | jobsNotFull
  | jobsNotEmpty
  | processedNotFull
  | processedNotEmpty
  deriving DecidableEq, Repr

/-- The threads that wait for the queues. -/
def crew (c : Config) : List Thread :=
  .scanner :: .writer :: (List.range c.workerCount).map .worker

/-- The thread whose step it is, if it works on the queues. -/
def Label.thread : Label → Option Thread
  | .scanner _ => some .scanner
  | .worker index _ => some (.worker index)
  | .writer _ => some .writer
  | .progress _ | .canceller | .main _ | .requestExternalStop => none

/-- The condition that the next call of a thread waits on. -/
def State.condition (s : State) : Thread → Option Condition
  | .main => none
  | .scanner =>
    match s.scanner with
    | .pushing _ _ => some .jobsNotFull
    | _ => none
  | .worker index =>
    match (s.workers index).pc with
    | .popping => some .jobsNotEmpty
    | .pushing _ => some .processedNotFull
    | _ => none
  | .writer =>
    match s.writer with
    | .popping => some .processedNotEmpty
    | _ => none

def Pushed.isWaits {α : Type} : Pushed α → Bool
  | .waits => true
  | _ => false

def Popped.isWaits {α : Type} : Popped α → Bool
  | .waits => true
  | _ => false

/-- The next call of a thread finds its predicate false, and no stop. -/
def State.mustWait (c : Config) (s : State) : Thread → Bool
  | .main => false
  | .scanner =>
    match s.scanner with
    | .pushing job _ => (s.jobs.push s.stopRequested job 0).isWaits
    | _ => false
  | .worker index =>
    match (s.workers index).pc with
    | .popping => (s.jobs.pop s.stopRequested).isWaits
    | .pushing p => (s.processed.push s.stopRequested p (processedEntrySize c p)).isWaits
    | _ => false
  | .writer =>
    match s.writer with
    | .popping => (s.processed.pop s.stopRequested).isWaits
    | _ => false

/-- The conditions that a step notifies as a whole: a `close` those of its queue, the first stop
request all of them, as all waits have the token of the pipeline. -/
def State.closings (s t : State) : List Condition :=
  (if t.stopRequested && !s.stopRequested then
    [.jobsNotFull, .jobsNotEmpty, .processedNotFull, .processedNotEmpty] else []) ++
  (if t.jobs.closed && !s.jobs.closed then [.jobsNotEmpty, .jobsNotFull] else []) ++
  (if t.processed.closed && !s.processed.closed then [.processedNotEmpty, .processedNotFull] else [])

/-- What a step notifies. The end of a push notifies one thread that waits for an item, and the end
of a pop one that waits for room. -/
def State.signal (s t : State) : Signal Condition :=
  if s.closings t ≠ [] then .all (s.closings t)
  else if s.jobs.items.length < t.jobs.items.length then .one .jobsNotEmpty
  else if t.jobs.items.length < s.jobs.items.length then .one .jobsNotFull
  else if s.processed.items.length < t.processed.items.length then .one .processedNotEmpty
  else if t.processed.items.length < s.processed.items.length then .one .processedNotFull
  else .nobody

/-- The pipeline with its wait sets: a thread that is parked waits for a notification. -/
structure Parking where
  pipeline : State
  parked : Thread → Bool

/-- A step of the pipeline and the thread that its notification wakes, a thread that finds its
predicate false, or a thread that wakes for no reason. -/
inductive Action where
  | goes (l : Label) (chosen : Option Thread)
  | parks (thread : Thread)
  | wakes (thread : Thread)
  deriving DecidableEq, Repr

namespace Parking

def start (c : Config) (v : Repository.Vault) (externalStop : Bool) : Parking :=
  ⟨State.start c v externalStop, fun _ => false⟩

def step (c : Config) (x : Externals) (u : Parking) : Action → Option Parking
  | .goes l chosen =>
    if l.thread.any u.parked then none
    else do
      let t ← Snapshot.step c x u.pipeline l
      let parked ← (u.pipeline.signal t).wake (crew c) u.pipeline.condition u.parked chosen
      some ⟨t, parked⟩
  | .parks thread =>
    if thread ∈ crew c ∧ u.parked thread = false ∧ u.pipeline.mustWait c thread = true then
      some { u with parked := Function.update u.parked thread true }
    else none
  | .wakes thread =>
    if u.parked thread then some { u with parked := Function.update u.parked thread false }
    else none

end Parking

/-- The calling thread has not come to the joins: it creates the threads, or shuts them down. -/
def MainPc.launching : MainPc → Bool
  | .checking | .announcing | .checkingAgain | .registering | .cancelling _ _ | .deciding
  | .creating _ | .shutting _ _ => true
  | _ => false

/-- A thread runs and has not come to its end. -/
def State.unfinished (s : State) : Thread → Bool
  | .main => s.main.launching
  | .scanner => !s.scanner.over
  | .worker index => !(s.workers index).pc.over
  | .writer => !s.writer.over

/-- There is an unfinished thread, and each one is parked without a notification. -/
def Parking.Stranded (c : Config) (u : Parking) : Prop :=
  (∃ thread ∈ .main :: crew c, u.pipeline.unfinished thread = true) ∧
    ∀ thread ∈ .main :: crew c, u.pipeline.unfinished thread = true → u.parked thread = true

end LocalVault.Snapshot
