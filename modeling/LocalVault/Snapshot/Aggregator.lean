import LocalVault.Snapshot.Pipeline

namespace LocalVault.Snapshot
open Library Repository

inductive OperationPhase where
  | preparing
  | scanning
  | writingMetadata
  | finalizing
  | complete
  deriving DecidableEq, Repr

structure ProgressEvent where
  phase : OperationPhase
  currentPath : Path
  discoveredEntries : Nat
  processedEntries : Nat
  processedBytes : Nat
  totalEntries : Option Nat
  totalBytes : Option Nat
  newChunks : Nat
  reusedChunks : Nat
  message : String
  deriving DecidableEq, Repr

/-- The atomic counters. -/
inductive Counter where
  | discoveredEntries
  | discoveredBytes
  | processedEntries
  | processedBytes
  | newChunks
  | reusedChunks
  deriving DecidableEq, Repr

def Counter.name : Counter → String
  | .discoveredEntries => "discovered entries"
  | .discoveredBytes => "discovered bytes"
  | .processedEntries => "processed entries"
  | .processedBytes => "processed bytes"
  | .newChunks => "new chunks"
  | .reusedChunks => "reused chunks"

/-- The loads with which an event is put together. -/
inductive Field where
  | discoveredEntries
  | processedEntries
  | processedBytes
  | totalEntries
  | totalBytes
  | newChunks
  | reusedChunks
  deriving DecidableEq, Repr

def Field.counter : Field → Counter
  | .discoveredEntries | .totalEntries => .discoveredEntries
  | .processedEntries => .processedEntries
  | .processedBytes => .processedBytes
  | .totalBytes => .discoveredBytes
  | .newChunks => .newChunks
  | .reusedChunks => .reusedChunks

/-- The loads of `event` in their order. -/
def loads (complete : Bool) : List Field :=
  [.discoveredEntries, .processedEntries, .processedBytes] ++
    (if complete then [.totalEntries, .totalBytes] else []) ++ [.newChunks, .reusedChunks]

structure Emission where
  time : Int
  required : Bool
  deriving DecidableEq, Repr

/-- `std::chrono::seconds(1)` in nanoseconds. -/
def second : Int := 1000000000

/-- `finished_` and `cancelled_` are `progressFinished` and `progressCancelled` of the pipeline. -/
structure ProgressAggregator where
  counters : Counter → Nat
  currentPath : Path
  dirty : Bool
  scanComplete : Bool
  scanCompletionPending : Bool
  writingPhaseEmitted : Bool
  emissions : List Emission

namespace ProgressAggregator

def store (a : ProgressAggregator) (k : Counter) (value : Nat) : ProgressAggregator :=
  { a with counters := Function.update a.counters k value }

/-- `notify`. -/
def notify (a : ProgressAggregator) (currentPath : Path) : ProgressAggregator :=
  { a with currentPath, dirty := true }

def markScanComplete (a : ProgressAggregator) (currentPath : Path) : ProgressAggregator :=
  { a with scanComplete := true, scanCompletionPending := true, currentPath, dirty := true }

/-- The emissions that `emit` does not forget at the time. -/
def recent (a : ProgressAggregator) (now : Int) : List Emission :=
  a.emissions.dropWhile (fun e => e.time ≤ now && second ≤ now - e.time)

/-- `emit` lets an event through behind these emissions. -/
def admits (emissions : List Emission) (required : Bool) : Bool :=
  emissions.length < 10 && (required || (emissions.filter (fun e => !e.required)).length < 4)

end ProgressAggregator

/-- The calls of `emit_required`, and the one of `emit`. -/
inductive Occasion where
  | preparing
  | scanning
  | scanCompletion
  | firstWriting
  | ordinary
  | finalizing
  | complete
  deriving DecidableEq, Repr

def Occasion.required : Occasion → Bool
  | .ordinary => false
  | _ => true

/-- The arguments of a call of `emit`. -/
structure Notice where
  occasion : Occasion
  phase : OperationPhase
  currentPath : Path
  deriving DecidableEq, Repr

/-- An event that is being put together, with what `clock_` said, the scan flag and the counters
that were loaded for it. -/
structure Draft where
  notice : Notice
  time : Int
  complete : Option Bool
  loaded : List (Field × Nat)
  deriving DecidableEq, Repr

namespace Draft

/-- The next access to the aggregator, if one is left. -/
def next (d : Draft) (a : ProgressAggregator) : Option Draft :=
  match d.complete with
  | none => some { d with complete := some a.scanComplete }
  | some complete =>
    match (loads complete).drop d.loaded.length with
    | [] => none
    | field :: _ => some { d with loaded := d.loaded ++ [(field, a.counters field.counter)] }

def value (d : Draft) (field : Field) : Nat := (d.loaded.lookup field).getD 0

def event (d : Draft) : ProgressEvent :=
  { phase := d.notice.phase
    currentPath := d.notice.currentPath
    discoveredEntries := d.value .discoveredEntries
    processedEntries := d.value .processedEntries
    processedBytes := d.value .processedBytes
    totalEntries := d.loaded.lookup .totalEntries
    totalBytes := d.loaded.lookup .totalBytes
    newChunks := d.value .newChunks
    reusedChunks := d.value .reusedChunks
    message := "" }

end Draft

/-- A call of the callback: the event and the time of the call. -/
structure Delivery where
  draft : Draft
  time : Int
  deriving DecidableEq, Repr

/-- Where a thread stands in `record_discovered` or `record_processed`: the additions that are
left, and the value that `add_atomic` has loaded. -/
inductive Recorder where
  | idle
  | adding (adds : List (Counter × Nat)) (current : Option Nat) (currentPath : Path)
  | recorded
  deriving DecidableEq, Repr

/-- The additions of `record_discovered`. -/
def discovery (e : ScannedEntry) : List (Counter × Nat) :=
  [(.discoveredEntries, 1), (.discoveredBytes, e.logicalSize)]

/-- The additions of `record_processed`. -/
def processing (p : ProcessedEntry) (e : ScannedEntry) : List (Counter × Nat) :=
  [(.processedEntries, 1), (.processedBytes, e.logicalSize), (.newChunks, p.newChunkCount),
    (.reusedChunks, p.chunkCount - p.newChunkCount)]

namespace Recorder

/-- One access of `add_atomic` or `notify` to the aggregator. A weak exchange may fail without
a reason. -/
def next (r : Recorder) (a : ProgressAggregator) (weak : Bool) :
    Option (Except LocalVaultError (Recorder × ProgressAggregator)) :=
  match r with
  | .adding ((k, value) :: rest) none path =>
    some (.ok (.adding ((k, value) :: rest) (some (a.counters k)) path, a))
  | .adding ((k, value) :: rest) (some current) path =>
    if maximumByteCount - value < current then
      some (.error (internalError (k.name ++ " counter overflow")))
    else if a.counters k = current ∧ weak = false then
      some (.ok (.adding rest none path, a.store k (current + value)))
    else some (.ok (.adding ((k, value) :: rest) (some (a.counters k)) path, a))
  | .adding [] _ path => some (.ok (.recorded, a.notify path))
  | _ => none

def settled : Recorder → Bool
  | .adding _ _ _ => false
  | _ => true

/-- The thread goes on behind the call. -/
def leave : Recorder → Recorder
  | .recorded => .idle
  | r => r

end Recorder

/-- Where a thread stands in `emit`. -/
inductive Emitter where
  | idle
  | asked (n : Notice)
  | building (d : Draft)
  | over
  deriving DecidableEq, Repr

def Emitter.leave : Emitter → Emitter
  | .over => .idle
  | e => e

/-- Where the progress thread stands in `run`. Behind an emission it may have to set
`writing_phase_emitted_`. -/
inductive Runner where
  | waiting
  | consumed (currentPath : Path) (scanCompletion : Bool)
  | emitting (setsWriting : Bool)
  deriving DecidableEq, Repr

/-- How far a call of `create_snapshot` is: in front of the pipeline, in it or behind it. -/
inductive Course where
  | preparing
  | running
  | thrown
  | returned
  deriving DecidableEq, Repr

/-- A call of `create_snapshot` with a callback. The lists are history: what `emit` was called
for, the emissions it let through and the calls it did not, the calls of the callback, and the
entries and results whose recording has begun. -/
structure Observed where
  pipeline : State
  aggregator : ProgressAggregator
  now : Int
  course : Course
  scanner : Recorder
  workers : Nat → Recorder
  caller : Emitter
  runner : Runner
  emitter : Emitter
  asked : List Occasion
  emitted : List Emission
  suppressed : List Notice
  delivered : List Delivery
  found : List ScannedEntry
  recorded : List ProcessedEntry

/-- What happens next: a step of the pipeline, an access of a thread to the aggregator, where
the callback may throw, or time that goes by. -/
inductive Turn where
  | pipeline (l : Label)
  | scannerRecords (weak : Bool)
  | workerRecords (index : Nat) (weak : Bool)
  | marksScanComplete
  | callerEmits (throws : Option Raised)
  | runs (throws : Option Raised)
  | opens
  | returns
  | clock (now : Int)
  deriving DecidableEq, Repr

namespace Observed

/-- Whether a thread is through with the aggregator, where its next step in the pipeline lies
behind a call of it. -/
def ready (w : Observed) : Label → Bool
  | .scanner a =>
    match w.pipeline.scanner with
    | .emitting (.entry _ :: _) =>
      if a = .next then w.scanner = .recorded else w.scanner.settled
    | .closing => w.aggregator.scanComplete
    | _ => true
  | .worker index a =>
    match (w.pipeline.workers index).pc with
    | .finished p =>
      match p.value with
      | .entry _ => if a = .next then w.workers index = .recorded else (w.workers index).settled
      | .warning _ => true
    | _ => true
  | .progress a =>
    match w.pipeline.progress with
    | .running => a = .next && w.runner = .waiting &&
        (w.pipeline.progressCancelled || !w.aggregator.dirty)
    | _ => true
  | .main a => w.course = .running &&
    match w.pipeline.main with
    | .announcing | .finalizing => a = .next && w.caller = .over
    | _ => true
  | _ => true

/-- The thread of a pipeline step is behind its call of the aggregator. -/
def leave (w : Observed) : Label → Observed
  | .scanner _ => { w with scanner := w.scanner.leave }
  | .worker index _ =>
    { w with workers := Function.update w.workers index (w.workers index).leave }
  | .main _ => { w with caller := w.caller.leave }
  | _ => w

/-- A step of the pipeline. -/
def moves (c : Config) (x : Externals) (w : Observed) (l : Label) : Option Observed :=
  (step c x w.pipeline l).map (fun pipeline => { w with pipeline })

/-- `record_discovered` by the scanner. -/
def scannerRecords (c : Config) (x : Externals) (w : Observed) (weak : Bool) : Option Observed :=
  match w.pipeline.scanner, w.scanner with
  | .emitting (.entry e :: _), .idle =>
    some { w with scanner := .adding (discovery e) none e.sourcePath, found := w.found ++ [e] }
  | .emitting (.entry _ :: _), r =>
    match r.next w.aggregator weak with
    | some (.ok (scanner, aggregator)) => some { w with scanner, aggregator }
    | some (.error e) => w.moves c x (.scanner (.raises (.localVault e)))
    | none => none
  | _, _ => none

def setRecorder (w : Observed) (index : Nat) (r : Recorder) : Observed :=
  { w with workers := Function.update w.workers index r }

/-- `record_processed` by a worker. -/
def workerRecords (c : Config) (x : Externals) (w : Observed) (index : Nat) (weak : Bool) :
    Option Observed :=
  match (w.pipeline.workers index).pc with
  | .finished p =>
    match p.value, w.workers index with
    | .entry e, .idle =>
      some { w.setRecorder index (.adding (processing p e) none e.sourcePath) with
        recorded := w.recorded ++ [p] }
    | .entry _, r =>
      match r.next w.aggregator weak with
      | some (.ok (r, aggregator)) => some { w.setRecorder index r with aggregator }
      | some (.error e) => w.moves c x (.worker index (.raises (.localVault e)))
      | none => none
    | .warning _, _ => none
  | _ => none

/-- `mark_scan_complete` by the scanner. -/
def marksScanComplete (c : Config) (w : Observed) : Option Observed :=
  match w.pipeline.scanner with
  | .closing =>
    if w.aggregator.scanComplete then none
    else some { w with aggregator := w.aggregator.markScanComplete c.source }
  | _ => none

/-- A step of `emit` up to the end of the callback, which may not throw. -/
def emit (w : Observed) : Emitter → Option (Observed × Emitter)
  | .asked n =>
    let emissions := w.aggregator.recent w.now
    if ProgressAggregator.admits emissions n.occasion.required then
      let emission : Emission := ⟨w.now, n.occasion.required⟩
      some ({ w with
        aggregator := { w.aggregator with emissions := emissions ++ [emission] }
        emitted := w.emitted ++ [emission] }, .building ⟨n, w.now, none, []⟩)
    else some ({ w with
      aggregator := { w.aggregator with emissions }
      suppressed := w.suppressed ++ [n] }, .over)
  | .building d =>
    match d.next w.aggregator with
    | some d => some (w, .building d)
    | none => some ({ w with delivered := w.delivered ++ [⟨d, w.now⟩] }, .over)
  | _ => none

/-- The callback is called and throws. -/
def delivers (w : Observed) : Emitter → Option Observed
  | .building d =>
    match d.next w.aggregator with
    | some _ => none
    | none => some { w with delivered := w.delivered ++ [⟨d, w.now⟩] }
  | _ => none

/-- What the calling thread emits at its place. -/
def due (c : Config) (w : Observed) : Option Notice :=
  match w.course, w.pipeline.main with
  | .preparing, _ => some ⟨.preparing, .preparing, c.source⟩
  | .running, .announcing => some ⟨.scanning, .scanning, c.source⟩
  | .running, .finalizing => some ⟨.finalizing, .finalizing, c.source⟩
  | .running, .published => some ⟨.complete, .complete, c.source⟩
  | _, _ => none

def ask (w : Observed) (n : Notice) : Observed := { w with asked := w.asked ++ [n.occasion] }

/-- The calling thread meets an exception of the callback. The one of the last call is only
reported. -/
def callerThrows (c : Config) (x : Externals) (w : Observed) (e : Raised) : Option Observed :=
  match w.course, w.pipeline.main with
  | .preparing, _ => some { w with course := .thrown, caller := .idle }
  | .running, .published => some { w with caller := .over }
  | .running, _ => ({ w with caller := .idle }).moves c x (.main (.raises e))
  | _, _ => none

def callerEmits (c : Config) (x : Externals) (w : Observed) (throws : Option Raised) :
    Option Observed :=
  match w.due c, w.caller, throws with
  | some n, .idle, none => some { w.ask n with caller := .asked n }
  | some _, emitter, none => (w.emit emitter).map (fun r => { r.1 with caller := r.2 })
  | some _, emitter, some e => (w.delivers emitter).bind (fun u => u.callerThrows c x e)
  | none, _, _ => none

/-- What the progress thread emits for a change, behind its look at `processed_entries_`. -/
def judged (w : Observed) (currentPath : Path) (scanCompletion : Bool) : Notice × Bool :=
  let hasProcessed : Bool := w.aggregator.counters .processedEntries ≠ 0
  let phase : OperationPhase := if hasProcessed then .writingMetadata else .scanning
  if scanCompletion then (⟨.scanCompletion, phase, currentPath⟩, hasProcessed)
  else if hasProcessed && !w.aggregator.writingPhaseEmitted then
    (⟨.firstWriting, .writingMetadata, currentPath⟩, true)
  else (⟨.ordinary, phase, currentPath⟩, false)

/-- The progress thread in `run`, where the callback does not throw. -/
def goesOn (w : Observed) : Option Observed :=
  match w.runner, w.emitter with
  | .waiting, _ =>
    if w.aggregator.dirty && !w.pipeline.progressCancelled then
      some { w with
        aggregator := { w.aggregator with dirty := false, scanCompletionPending := false }
        runner := .consumed w.aggregator.currentPath w.aggregator.scanCompletionPending }
    else none
  | .consumed currentPath scanCompletion, _ =>
    let (notice, setsWriting) := w.judged currentPath scanCompletion
    some { w.ask notice with runner := .emitting setsWriting, emitter := .asked notice }
  | .emitting setsWriting, .over =>
    some { w with
      aggregator := { w.aggregator with
        writingPhaseEmitted := w.aggregator.writingPhaseEmitted || setsWriting }
      runner := .waiting
      emitter := .idle }
  | .emitting _, emitter => (w.emit emitter).map (fun r => { r.1 with emitter := r.2 })

def runs (c : Config) (x : Externals) (w : Observed) (throws : Option Raised) : Option Observed :=
  match w.pipeline.progress, throws with
  | .running, none => w.goesOn
  | .running, some e =>
    (w.delivers w.emitter).bind (fun u =>
      ({ u with runner := .waiting, emitter := .idle }).moves c x (.progress (.raises e)))
  | _, _ => none

def step (c : Config) (x : Externals) (w : Observed) : Turn → Option Observed
  | .pipeline l => if w.ready l then (w.moves c x l).map (fun u => u.leave l) else none
  | .scannerRecords weak => w.scannerRecords c x weak
  | .workerRecords index weak =>
    if index < c.workerCount then w.workerRecords c x index weak else none
  | .marksScanComplete => w.marksScanComplete c
  | .callerEmits throws => w.callerEmits c x throws
  | .runs throws => w.runs c x throws
  | .opens =>
    if w.course = .preparing ∧ w.caller = .over then
      some { w with course := .running, caller := .idle }
    else none
  | .returns =>
    if w.course = .running ∧ w.pipeline.main = .published ∧ w.caller = .over then
      some { w with course := .returned }
    else none
  | .clock now => if w.now ≤ now then some { w with now } else none

def run (c : Config) (x : Externals) : Observed → List Turn → Option Observed
  | w, [] => some w
  | w, turn :: turns => (w.step c x turn).bind (fun u => run c x u turns)

/-- The call in front of its first event. The writer lock, the recovery and the pending row lie
between that event and the pipeline, which starts with `v`. -/
def start (c : Config) (v : Vault) (externalStop : Bool) (now : Int) : Observed :=
  { pipeline := State.start c v externalStop
    aggregator := ⟨fun _ => 0, [], false, false, false, false, []⟩
    now, course := .preparing
    scanner := .idle, workers := fun _ => .idle, caller := .idle, runner := .waiting
    emitter := .idle
    asked := [], emitted := [], suppressed := [], delivered := [], found := [], recorded := [] }

end Observed

end LocalVault.Snapshot
