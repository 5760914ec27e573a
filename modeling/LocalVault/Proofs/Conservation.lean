import LocalVault.Proofs.Joins
import LocalVault.Proofs.Results

namespace LocalVault.Snapshot
open Library Repository

variable {c : Config} {x : Externals} {s t : State} {f : Failure} {stage : Stage} {job : FileJob}

/-- The jobs the scanner still has to hand out. -/
def ScannerPc.rest (c : Config) : ScannerPc → List FileJob
  | .waiting | .starting => c.scan
  | .emitting rest => rest
  | .pushing job rest => job :: rest
  | _ => []

/-- The job a worker has in its hands, answered or not. -/
def WorkerPc.hand : WorkerPc → List FileJob
  | .pushing p | .refused p _ => [p.origin]
  | pc => pc.open.toList

/-- The job whose record the writer is writing. -/
def WriterPc.hand : WriterPc → List FileJob
  | .inserting p | .referring p _ _ => [p.origin]
  | _ => []

/-- Where a job may be, from the scanner to the records. -/
def tally (c : Config) (s : State) (job : FileJob) : Nat :=
  (s.scanner.rest c).count job + s.jobs.values.count job +
    pooled c.workerCount (fun i => (s.workers i).pc.hand.count job) +
    (s.processed.values.map ProcessedEntry.origin).count job + s.writer.hand.count job +
    (s.handled.map ProcessedEntry.origin).count job

def ScannerPc.shuts : ScannerPc → Bool
  | .shutting _ _ => true
  | _ => false

def WriterPc.shuts : WriterPc → Bool
  | .shutting _ _ => true
  | _ => false

/-- Nothing has failed, and nobody is about to report a failure. -/
structure Clean (c : Config) (s : State) : Prop where
  errors : s.firstError = none
  scanner : s.scanner.shuts = false
  workers : ∀ i < c.workerCount, (s.workers i).pc.shuts = false
  writer : s.writer.shuts = false

theorem Clean.not_failed (h : Clean c s) : ¬ s.failed := by
  simp [State.failed, h.errors]

theorem Clean.no_stop (h : Clean c s) (ho : Orderly c s) : s.stopRequested = false := by
  cases hs : s.stopRequested with
  | false => rfl
  | true => exact absurd (ho.sound.stop hs) h.not_failed

theorem ScannerMove.from_shutting (hm : ScannerMove c s t) (hp : s.scanner = .shutting f stage) :
    t = { s.shut f stage with scanner := afterStage .shutting .done f stage } := by
  cases hm with
  | starts h => simp [hp] at h
  | fails f hf h => rcases h with h | ⟨rest, h⟩ <;> simp [hp] at h
  | emits job rest h => simp [hp] at h
  | finishes h he => simp [hp] at h
  | pushes job rest jobs h hq => simp [hp] at h
  | refused job rest h hq => simp [hp] at h
  | rejects job e h => simp [hp] at h
  | closes h => simp [hp] at h
  | shuts g stage' h =>
    rw [hp] at h
    cases h
    rfl

theorem WriterMove.from_shutting (hm : WriterMove c s t) (hp : s.writer = .shutting f stage) :
    t = { s.shut f stage with writer := afterStage .shutting .done f stage } := by
  cases hm with
  | fails f totals hf h => simp [hp, WriterPc.throws] at h
  | starts h => simp [hp] at h
  | pops p processed h hq => simp [hp] at h
  | ended h hq => simp [hp] at h
  | warns p w b b' pc h => simp [hp] at h
  | inserts p e b b' id pc h => simp [hp] at h
  | begins p e b id db references h => simp [hp] at h
  | refers p id ref rest b db totals now h => simp [hp] at h
  | hashes p id b b' pc h => simp [hp] at h
  | skips last b h => simp [hp] at h
  | commits last b h => simp [hp] at h
  | breaks b e hb hr last h => simp [hp] at h
  | abandons h => simp [hp] at h
  | concludes h => simp [hp] at h
  | shuts g stage' h =>
    rw [hp] at h
    cases h
    rfl

theorem WorkerMove.from_shutting {i : Nat} (hm : WorkerMove c x s i t)
    (hp : (s.workers i).pc = .shutting f stage) :
    t = (s.shut f stage).moveWorker i (afterStage .shutting .leaving f stage) := by
  cases hm with
  | works pc h =>
    rw [hp] at h
    cases h with
    | fails _ t callback spool f hpc hf => cases hpc
    | dies _ e hpc => cases hpc
  | pops job jobs h hq => simp [hp] at h
  | confirms r after h => simp [hp] at h
  | finishes p h => simp [hp] at h
  | ended h hq => simp [hp] at h
  | stores r raw compressed object known objects h hs => simp [hp] at h
  | leaves r raw compressed known e h hs => simp [hp] at h
  | pushes p processed h hq => simp [hp] at h
  | refused p h hq => simp [hp] at h
  | oversized p h hq => simp [hp] at h
  | rejects p large e h => simp [hp] at h
  | counts h => simp [hp] at h
  | closes h => simp [hp] at h
  | shuts g stage' h =>
    rw [hp] at h
    cases h
    rfl

/-- What was clean has always been so. -/
theorem Move.clean (hm : Move c x s t) (ho : Orderly c s) (h : Clean c t) : Clean c s := by
  have herrors : s.firstError = none := by
    have hno : ¬ s.failed := fun hf => h.not_failed (hm.failed hf)
    simpa [State.failed] using hno
  refine ⟨herrors, ?_, ?_, ?_⟩
  · cases hs : s.scanner with
    | shutting f stage =>
      rcases hm.scanner_cases ho.young with he | hmove | ⟨hw, _⟩
      · have := h.scanner
        rw [he, hs] at this
        cases this
      · have hr := ho.sound.scannerReports f stage hs
        rw [hmove.from_shutting hs] at h
        exact absurd hr.after h.not_failed
      · rw [hs] at hw
        cases hw
    | _ => rfl
  · intro i hi
    cases hs : (s.workers i).pc with
    | shutting f stage =>
      rcases hm.worker_cases ho.young i with he | hmove | ⟨hw, _⟩
      · have := h.workers i hi
        rw [he, hs] at this
        cases this
      · have hr := ho.sound.workerReports i f stage hs
        rw [hmove.from_shutting hs] at h
        exact absurd hr.after h.not_failed
      · rw [hs] at hw
        cases hw
    | _ => rfl
  · cases hs : s.writer with
    | shutting f stage =>
      rcases hm.writer_cases ho.young with he | hmove | ⟨hw, _⟩
      · have := h.writer
        rw [he, hs] at this
        cases this
      · have hr := ho.sound.writerReports f stage hs
        rw [hmove.from_shutting hs] at h
        exact absurd hr.after h.not_failed
      · rw [hs] at hw
        cases hw
    | _ => rfl

/-- The scanner hands its jobs out one by one. -/
theorem ScannerMove.tally (hm : ScannerMove c s t) (ho : Orderly c t) (h : Clean c t) (job : FileJob) :
    (t.scanner.rest c).count job + t.jobs.values.count job =
      (s.scanner.rest c).count job + s.jobs.values.count job := by
  have hshuts := h.scanner
  cases hm with
  | starts hp => simp only [hp, ScannerPc.rest]
  | fails f hf hp => cases hshuts
  | emits first rest hp => simp only [hp, ScannerPc.rest]
  | finishes hp he => simp only [hp, ScannerPc.rest]
  | pushes first rest jobs hp hq =>
    obtain ⟨_, _, _, rfl⟩ := Queue.push_accepted hq
    simp only [hp, ScannerPc.rest, Queue.values, List.map_append, List.map_cons, List.map_nil,
      List.count_append, List.count_cons, List.count_nil]
    omega
  | refused first rest hp hq => exact absurd (ho.sound.scannerRefused first rfl) h.not_failed
  | rejects first e hp => cases hshuts
  | closes hp =>
    simp only [hp, ScannerPc.rest]
    rfl
  | shuts f stage hp =>
    have hshut := afterStage_cases ScannerPc.shutting .done f stage
    simp only [hp, ScannerPc.rest, Queue.values, shut_untouched.jobItems]
    rcases hshut with he | ⟨stage', he⟩
    · simp [he]
    · simp [he]

/-- A worker that has left its loop. -/
def WorkerPc.gone : WorkerPc → Bool
  | .leaving | .closing | .done => true
  | _ => false

/-- The writer has seen the end of its queue. -/
def WriterPc.gone : WriterPc → Bool
  | .ending | .committing true | .done => true
  | _ => false

theorem open_hand {pc : WorkerPc} {first : FileJob} (h : pc.open = some first) :
    pc.hand = [first] := by
  cases pc <;> cases h <;> rfl

theorem open_gone {pc : WorkerPc} {first : FileJob} (h : pc.open = some first) :
    pc.gone = false := by
  cases pc <;> cases h <;> rfl

theorem Works.hand {objects : Objects} {stop : Bool} {known : Known} {old pc : WorkerPc}
    (hw : Works c x objects stop known old pc) (hshuts : pc.shuts = false) : pc.hand = old.hand := by
  have hopen := hw.open hshuts
  cases hold : old.open with
  | some first => rw [open_hand hold, open_hand (hopen.trans hold)]
  | none =>
    cases hw with
    | starts => rfl
    | dies _ e hpc => cases hshuts
    | fails _ t callback spool f hpc hf =>
      rw [attempt_open hpc] at hold
      cases hold
    | _ => cases hold

theorem Works.stays {objects : Objects} {stop : Bool} {known : Known} {old pc : WorkerPc}
    (hw : Works c x objects stop known old pc) (hshuts : pc.shuts = false) : pc.gone = false := by
  have hopen := hw.open hshuts
  cases hold : old.open with
  | some first => exact open_gone (hopen.trans hold)
  | none =>
    cases hw with
    | starts => rfl
    | dies _ e hpc => cases hshuts
    | fails _ t callback spool f hpc hf =>
      rw [attempt_open hpc] at hold
      cases hold
    | _ => cases hold

/-- A worker takes a job, keeps it, and gives it on. -/
theorem WorkerMove.tally {i : Nat} (hm : WorkerMove c x s i t) (hi : i < c.workerCount)
    (ho : Orderly c t) (h : Clean c t) (job : FileJob) :
    t.jobs.values.count job + (t.workers i).pc.hand.count job +
        (t.processed.values.map ProcessedEntry.origin).count job =
      s.jobs.values.count job + (s.workers i).pc.hand.count job +
        (s.processed.values.map ProcessedEntry.origin).count job := by
  have hshuts := h.workers i hi
  cases hm with
  | works pc hw =>
    rw [State.moveWorker, setWorker_same] at hshuts ⊢
    rw [goto_pc, hw.hand hshuts]
    rfl
  | pops first jobs hp hq =>
    obtain ⟨_, n, hitems, _⟩ := Queue.pop_item hq
    rw [setWorker_same, goto_pc, open_hand (accept_open first).1]
    change jobs.values.count job + _ + (s.processed.values.map ProcessedEntry.origin).count job = _
    simp only [hp, WorkerPc.hand, WorkerPc.open, Queue.values, hitems, List.map_cons,
      List.count_cons, List.count_nil, Option.toList_none]
    omega
  | confirms r after hp =>
    rw [setWorker_same] at hshuts ⊢
    rw [goto_pc, open_hand (confirmed_open hshuts), hp]
    rfl
  | finishes p hp =>
    rw [setWorker_same, goto_pc, hp]
    rfl
  | ended hp hq =>
    rw [State.moveWorker, setWorker_same, goto_pc, hp]
    rfl
  | stores r raw compressed object known objects hp hs =>
    rw [setWorker_same] at hshuts ⊢
    rw [goto_pc, open_hand (appended_open hshuts), hp]
    rfl
  | leaves r raw compressed known e hp hs =>
    rw [State.moveWorker, setWorker_same] at hshuts ⊢
    rw [goto_pc, open_hand (caught_open hshuts), hp]
    rfl
  | pushes p processed hp hq =>
    obtain ⟨_, _, _, rfl⟩ := Queue.push_accepted hq
    rw [State.moveWorker, setWorker_same, goto_pc, hp]
    change s.jobs.values.count job + _ + ((Queue.values { s.processed with
      items := s.processed.items ++ [(p, processedEntrySize c p)] }).map
        ProcessedEntry.origin).count job = _
    simp only [WorkerPc.hand, WorkerPc.open, Queue.values, List.map_append, List.map_cons,
      List.map_nil, List.count_append, List.count_cons, List.count_nil, Option.toList_none]
    omega
  | refused p hp hq =>
    exact absurd (ho.sound.workerRefused i p (by rw [State.moveWorker, setWorker_same]; rfl))
      h.not_failed
  | oversized p hp hq =>
    rw [State.moveWorker, setWorker_same, goto_pc, hp]
    rfl
  | rejects p large e hp =>
    rw [State.moveWorker, setWorker_same] at hshuts
    cases hshuts
  | shuts f stage hp =>
    rw [State.moveWorker, setWorker_same, goto_pc, hp]
    change (s.shut f stage).jobs.values.count job + _ +
      ((s.shut f stage).processed.values.map ProcessedEntry.origin).count job = _
    simp only [Queue.values, shut_untouched.jobItems, shut_untouched.processedItems]
    rcases afterStage_cases WorkerPc.shutting .leaving f stage with he | ⟨stage', he⟩
    · rw [he]
      rfl
    · rw [he]
      rfl
  | counts hp =>
    rw [State.moveWorker, setWorker_same, goto_pc, hp]
    split <;> rfl
  | closes hp =>
    rw [State.moveWorker, setWorker_same, goto_pc, hp]
    rfl

/-- The writer takes a result and records it. -/
theorem WriterMove.tally (hm : WriterMove c s t) (h : Clean c t) (job : FileJob) :
    (t.processed.values.map ProcessedEntry.origin).count job + t.writer.hand.count job +
        (t.handled.map ProcessedEntry.origin).count job =
      (s.processed.values.map ProcessedEntry.origin).count job + s.writer.hand.count job +
        (s.handled.map ProcessedEntry.origin).count job := by
  have hshuts := h.writer
  have hquiet : ∀ {pc : WriterPc}, pc = .popping ∨ pc = .committing false → pc.hand = [] := by
    rintro pc (rfl | rfl) <;> rfl
  have hrecord : ∀ {p : ProcessedEntry} {pc : WriterPc}, s.writer.hand = [p.origin] →
      pc = .popping ∨ pc = .committing false →
      pc.hand.count job + ((s.handled ++ [p]).map ProcessedEntry.origin).count job =
        s.writer.hand.count job + (s.handled.map ProcessedEntry.origin).count job := by
    intro p pc hw hpc
    simp only [hquiet hpc, hw, List.map_append, List.map_cons, List.map_nil, List.count_append,
      List.count_nil]
    omega
  cases hm with
  | starts hp => simp only [hp, WriterPc.hand]
  | fails f totals hf hp => cases hshuts
  | pops p processed hp hq =>
    obtain ⟨_, n, hitems, _⟩ := Queue.pop_item hq
    simp only [hp, WriterPc.hand, Queue.values, hitems, List.map_cons, List.count_cons,
      List.count_nil]
    omega
  | ended hp hq => simp only [hp, WriterPc.hand]
  | warns p w b b' pc hp hb hv hdb hr hpc =>
    have := hrecord (p := p) (by rw [hp]; rfl) hpc
    simp only
    omega
  | inserts p e b b' id pc hp hb hv ht hdb hr hpc =>
    have := hrecord (p := p) (by rw [hp]; rfl) hpc
    simp only
    omega
  | begins p e b id db references hp hb hv ht hdb hrefs hmax => simp only [hp, WriterPc.hand]
  | refers p id ref rest b db totals now hp hb hdb ht => simp only [hp, WriterPc.hand]
  | hashes p id b b' pc hp hb hdb hr hpc =>
    have := hrecord (p := p) (by rw [hp]; rfl) hpc
    simp only
    omega
  | skips last b hp hb hr => cases last <;> simp [hp, WriterPc.hand]
  | commits last b hp hb hr hs => cases last <;> simp [hp, WriterPc.hand]
  | breaks b e hb hr last hp => cases hshuts
  | abandons hp hs => simp only [hp, WriterPc.hand]
  | concludes hp hs => simp only [hp, WriterPc.hand]
  | shuts f stage hp =>
    have hu : Untouched s (s.shut f stage) := shut_untouched
    simp only [hp, WriterPc.hand, Queue.values, hu.processedItems, hu.handled]
    rcases afterStage_cases WriterPc.shutting .done f stage with he | ⟨stage', he⟩
    · simp [he]
    · simp [he]

/-- Nothing is lost and nothing comes twice: a worker leaves when all jobs are
taken, the writer when all results are there. -/
structure Flow (c : Config) (s : State) : Prop where
  conserved : ∀ job, tally c s job = c.scan.count job
  drained : ∀ i < c.workerCount, (s.workers i).pc.gone = true →
    s.scanner = .done ∧ s.jobs.items = []
  written : s.writer.gone = true → s.processed.items = [] ∧ s.activeWorkers = 0

theorem flow_start {v : Vault} {e : Bool} : Flow c (State.start c v e) := by
  refine ⟨fun job => ?_, (fun i _ h => by cases h), (fun h => by cases h)⟩
  have hpool : pooled c.workerCount (fun _ => 0) = 0 := pooled_eq_zero.mpr (fun _ _ => rfl)
  simpa [Snapshot.tally, State.start, ScannerPc.rest, WorkerPc.hand, WorkerPc.open, WriterPc.hand,
    Queue.values, Queue.empty] using hpool

theorem ScannerMove.flow (hm : ScannerMove c s t) (ho : Orderly c t) (h : Clean c t)
    (hf : Flow c s) : Flow c t := by
  have hframe := hm.frame
  refine ⟨fun job => ?_, ?_, ?_⟩
  · have hconserved := hf.conserved job
    have hmoved := hm.tally ho h job
    have hsame : t.processed.values = s.processed.values := congrArg (List.map Prod.fst) hframe.processedItems
    unfold Snapshot.tally at hconserved ⊢
    rw [hframe.workers, hframe.writer, hframe.handled, hsame]
    omega
  · intro i hi hg
    rw [hframe.workers] at hg
    have hdone := (hf.drained i hi hg).1
    have hover := hm.running.1
    rw [hdone] at hover
    cases hover
  · rw [hframe.writer, hframe.processedItems, hframe.activeWorkers]
    exact hf.written

theorem WriterMove.flow (hm : WriterMove c s t) (ho : Orderly c s) (hs : Clean c s) (h : Clean c t)
    (hf : Flow c s) : Flow c t := by
  have hframe := hm.frame
  refine ⟨fun job => ?_, ?_, ?_⟩
  · have hconserved := hf.conserved job
    have hmoved := hm.tally h job
    have hsame : t.jobs.values = s.jobs.values := congrArg (List.map Prod.fst) hframe.jobItems
    unfold Snapshot.tally at hconserved ⊢
    rw [hframe.workers, hframe.scanner, hsame]
    omega
  · rw [hframe.workers, hframe.scanner, hframe.jobItems]
    exact hf.drained
  · intro hg
    rw [hframe.activeWorkers]
    have hshuts := h.writer
    have hquiet : ∀ {pc : WriterPc}, pc = .popping ∨ pc = .committing false → pc.gone = false := by
      rintro pc (rfl | rfl) <;> rfl
    cases hm with
    | starts hp => cases hg
    | fails f totals hf' hp => cases hg
    | pops p processed hp hq => cases hg
    | ended hp hq =>
      rcases Queue.pop_ended hq with hstop | ⟨hitems, hclosed⟩
      · rw [hs.no_stop ho] at hstop
        cases hstop
      · rcases ho.sound.processed hclosed with hfailed | hzero
        · exact absurd hfailed hs.not_failed
        · exact ⟨hitems, hzero⟩
    | warns p w b b' pc hp hb hv hdb hr hpc =>
      rw [hquiet hpc] at hg
      cases hg
    | inserts p e b b' id pc hp hb hv ht hdb hr hpc =>
      rw [hquiet hpc] at hg
      cases hg
    | begins p e b id db references hp hb hv ht hdb hrefs hmax => cases hg
    | refers p id ref rest b db totals now hp hb hdb ht => cases hg
    | hashes p id b b' pc hp hb hdb hr hpc =>
      rw [hquiet hpc] at hg
      cases hg
    | skips last b hp hb hr =>
      cases last with
      | false => cases hg
      | true => exact hf.written (by rw [hp]; rfl)
    | commits last b hp hb hr hstop =>
      cases last with
      | false => cases hg
      | true => exact hf.written (by rw [hp]; rfl)
    | breaks b e hb hr last hp => cases hg
    | abandons hp hstop => exact hf.written (by rw [hp]; rfl)
    | concludes hp hstop => exact hf.written (by rw [hp]; rfl)
    | shuts f stage hp => exact absurd (hs.writer) (by rw [hp]; exact nofun)

/-- A worker that has not left is counted. -/
theorem active_counted {i : Nat} (hi : i < c.workerCount) (ho : Orderly c s)
    (hactive : (s.workers i).pc.active = true) : 0 < s.activeWorkers := by
  have hle := le_pooled (f := fun j => if (s.workers j).pc.active then 1 else 0) hi
  simp only [hactive, if_true] at hle
  rw [ho.sound.active]
  exact hle

/-- A worker leaves its loop when the jobs have come to an end. -/
theorem WorkerMove.leaves_drained {i : Nat} (hm : WorkerMove c x s i t) (hi : i < c.workerCount)
    (ho : Orderly c s) (hs : Clean c s) (h : Clean c t) (hin : (s.workers i).pc.gone = false)
    (hout : (t.workers i).pc.gone = true) : s.scanner = .done ∧ t.jobs.items = [] := by
  have hshuts := h.workers i hi
  cases hm with
  | works pc hw =>
    rw [State.moveWorker, setWorker_same, goto_pc] at hshuts hout
    rw [hw.stays hshuts] at hout
    cases hout
  | pops first jobs hp hq =>
    rw [setWorker_same, goto_pc, open_gone (accept_open first).1] at hout
    cases hout
  | confirms r after hp =>
    rw [setWorker_same, goto_pc] at hshuts hout
    rw [open_gone (confirmed_open hshuts)] at hout
    cases hout
  | finishes p hp =>
    rw [setWorker_same] at hout
    cases hout
  | ended hp hq =>
    rcases Queue.pop_ended hq with hstop | ⟨hitems, hclosed⟩
    · rw [hs.no_stop ho] at hstop
      cases hstop
    · rcases ho.sound.jobs hclosed with hfailed | hdone
      · exact absurd hfailed hs.not_failed
      · exact ⟨hdone, hitems⟩
  | stores r raw compressed object known objects hp hst =>
    rw [setWorker_same, goto_pc] at hshuts hout
    rw [open_gone (appended_open hshuts)] at hout
    cases hout
  | leaves r raw compressed known e hp hst =>
    rw [State.moveWorker, setWorker_same, goto_pc] at hshuts hout
    rw [open_gone (caught_open hshuts)] at hout
    cases hout
  | pushes p processed hp hq =>
    rw [State.moveWorker, setWorker_same] at hout
    cases hout
  | refused p hp hq =>
    rw [State.moveWorker, setWorker_same] at hout
    cases hout
  | oversized p hp hq =>
    rw [State.moveWorker, setWorker_same] at hout
    cases hout
  | rejects p large e hp =>
    rw [State.moveWorker, setWorker_same] at hout
    cases hout
  | shuts f stage hp =>
    have hnot := hs.workers i hi
    rw [hp] at hnot
    cases hnot
  | counts hp =>
    rw [hp] at hin
    cases hin
  | closes hp =>
    rw [hp] at hin
    cases hin

theorem WorkerMove.flow {i : Nat} (hm : WorkerMove c x s i t) (hi : i < c.workerCount)
    (ho : Orderly c s) (ho' : Orderly c t) (hs : Clean c s) (h : Clean c t) (hf : Flow c s) :
    Flow c t := by
  have hframe := hm.frame
  refine ⟨fun job => ?_, ?_, ?_⟩
  · have hconserved := hf.conserved job
    have hmoved := hm.tally hi ho' h job
    have hpool := pooled_change (n := c.workerCount) (i := i)
      (f := fun j => (s.workers j).pc.hand.count job) (g := fun j => (t.workers j).pc.hand.count job)
      hi (fun j hj => by rw [hframe.others j hj])
    unfold Snapshot.tally at hconserved ⊢
    rw [hframe.scanner, hframe.writer, hframe.handled]
    omega
  · intro j hj hg
    rw [hframe.scanner]
    cases hgone : (s.workers j).pc.gone with
    | true =>
      obtain ⟨hdone, hempty⟩ := hf.drained j hj hgone
      refine ⟨hdone, ?_⟩
      cases hm with
      | pops first jobs hp hq =>
        obtain ⟨_, n, hitems, _⟩ := Queue.pop_item hq
        rw [hempty] at hitems
        cases hitems
      | shuts f stage hp => exact shut_untouched.jobItems.trans hempty
      | _ => exact hempty
    | false =>
      by_cases hji : j = i
      · subst hji
        exact hm.leaves_drained hj ho hs h hgone hg
      · rw [hframe.others j hji, hgone] at hg
        cases hg
  · rw [hframe.writer]
    intro hg
    obtain ⟨hempty, hzero⟩ := hf.written hg
    have hcounted : (s.workers i).pc.active = true → False := by
      intro hactive
      have := active_counted hi ho hactive
      omega
    cases hm with
    | pushes p processed hp hq => exact absurd (by rw [hp]; rfl) hcounted
    | counts hp => exact absurd (by rw [hp]; rfl) hcounted
    | shuts f stage hp =>
      exact ⟨shut_untouched.processedItems.trans hempty, shut_untouched.activeWorkers.trans hzero⟩
    | _ => exact ⟨hempty, hzero⟩

/-- Nothing goes from hand to hand between two states. -/
structure Calm (c : Config) (s t : State) : Prop where
  rest : t.scanner.rest c = s.scanner.rest c
  done : s.scanner = .done → t.scanner = .done
  jobs : t.jobs.items = s.jobs.items
  hands : ∀ i, (t.workers i).pc.hand = (s.workers i).pc.hand
  gone : ∀ i, (t.workers i).pc.gone = true → (s.workers i).pc.gone = true
  activeWorkers : t.activeWorkers = s.activeWorkers
  processed : t.processed.items = s.processed.items
  hand : t.writer.hand = s.writer.hand
  writerGone : t.writer.gone = true → s.writer.gone = true
  handled : t.handled = s.handled

theorem Calm.flow (h : Calm c s t) (hf : Flow c s) : Flow c t := by
  have hjobs : t.jobs.values = s.jobs.values := congrArg (List.map Prod.fst) h.jobs
  have hprocessed : t.processed.values = s.processed.values :=
    congrArg (List.map Prod.fst) h.processed
  refine ⟨fun job => ?_, ?_, ?_⟩
  · have hconserved := hf.conserved job
    unfold Snapshot.tally at hconserved ⊢
    simp only [h.rest, h.hands, h.hand, h.handled, hjobs, hprocessed]
    exact hconserved
  · intro i hi hg
    rw [h.jobs]
    obtain ⟨hdone, hempty⟩ := hf.drained i hi (h.gone i hg)
    exact ⟨h.done hdone, hempty⟩
  · intro hg
    rw [h.processed, h.activeWorkers]
    exact hf.written (h.writerGone hg)

theorem OtherMove.calm (hm : OtherMove c s t) : Calm c s t := by
  have hframe := hm.frame
  refine ⟨by rw [hframe.scanner], by rw [hframe.scanner]; exact id, hframe.jobItems, ?_, ?_,
    hframe.activeWorkers, hframe.processedItems, by rw [hframe.writer], ?_, hframe.handled⟩
  · intro i
    rw [hframe.workers]
  · intro i
    rw [hframe.workers]
    exact id
  · rw [hframe.writer]
    exact id

theorem calm_main {vault : Vault} {registered finished : Bool} {totals : SnapshotTotals}
    {pc : MainPc} : Calm c s { s with
      vault, registered, progressFinished := finished, totals, main := pc } :=
  ⟨rfl, id, rfl, fun _ => rfl, fun _ => id, rfl, rfl, rfl, id, rfl⟩

theorem calm_shut {pc : MainPc} : Calm c s { s.shut f stage with main := pc } := by
  have hu : Untouched s (s.shut f stage) := shut_untouched
  refine ⟨by rw [hu.scanner], by rw [hu.scanner]; exact id, hu.jobItems, ?_, ?_, hu.activeWorkers,
    hu.processedItems, by rw [hu.writer], ?_, hu.handled⟩
  · intro i
    rw [hu.workers]
  · intro i
    rw [hu.workers]
    exact id
  · rw [hu.writer]
    exact id

theorem Creates.calm {n : Nat} (hc : Creates c s n t) (h : Uncreated n s) : Calm c s t := by
  cases hc with
  | progress => exact ⟨rfl, id, rfl, fun _ => rfl, fun _ => id, rfl, rfl, rfl, id, rfl⟩
  | writer =>
    have hw := h.writer (Nat.le_refl 1)
    exact ⟨rfl, id, rfl, fun _ => rfl, fun _ => id, rfl, rfl, by rw [hw]; rfl, nofun, rfl⟩
  | worker i hi =>
    have hw := h.workers i (Nat.le_refl _)
    refine ⟨rfl, id, rfl, ?_, ?_, rfl, rfl, rfl, id, rfl⟩
    · intro j
      by_cases hj : j = i
      · subst hj
        rw [State.moveWorker, setWorker_same, hw]
        rfl
      · rw [State.moveWorker, setWorker_other hj]
    · intro j hg
      by_cases hj : j = i
      · subst hj
        rw [State.moveWorker, setWorker_same] at hg
        cases hg
      · rw [State.moveWorker, setWorker_other hj] at hg
        exact hg
  | scanner n hn =>
    have hw := h.scanner
    refine ⟨by rw [hw]; rfl, ?_, rfl, fun _ => rfl, fun _ => id, rfl, rfl, rfl, id, rfl⟩
    intro hd
    rw [hw] at hd
    cases hd

theorem MainMove.calm (hm : MainMove c s t) (hy : Young s) : Calm c s t := by
  cases hm with
  | advances pc ha => exact calm_main
  | registers hp he => exact calm_main
  | cancels f stage hp => exact calm_shut
  | creates n hp => exact (create_creates n).calm (hy n (by rw [hp]; rfl))
  | shuts f stage hp => exact calm_shut
  | joinsWriter hp ho => exact calm_main
  | unregisters hp ho => exact calm_main
  | times now hp => exact calm_main
  | publishes now db hp hdb => exact calm_main

theorem Move.flow (hm : Move c x s t) (ho : Orderly c s) (hs : Clean c s) (h : Clean c t)
    (hf : Flow c s) : Flow c t := by
  have ho' := hm.orderly ho
  cases hm with
  | scanner hm => exact hm.flow ho' h hf
  | worker i hi hm => exact hm.flow hi ho ho' hs h hf
  | writer hm => exact hm.flow ho hs h hf
  | main hm => exact (hm.calm ho.young).flow hf
  | other hm => exact hm.calm.flow hf

/-- In a run without failures nothing is lost on the way, and nothing comes twice. -/
theorem run_flow {v : Vault} {e : Bool} {ls : List Label}
    (h : run c x (State.start c v e) ls = some s) (hc : Clean c s) : Flow c s := by
  have hall := run_invariant (P := fun s => Orderly c s ∧ (Clean c s → Flow c s))
    (fun s t hs hm => ⟨hm.orderly hs.1, fun ht =>
      have hclean := hm.clean hs.1 ht
      hm.flow hs.1 hclean ht (hs.2 hclean)⟩)
    ⟨orderly_start, fun _ => flow_start⟩ h
  exact hall.2 hc

/-- Where every thread has ended well, the records are the jobs of the scan. -/
theorem Flow.handled (hf : Flow c s) (hw : 0 < c.workerCount) (hscanner : s.scanner = .done)
    (hworkers : ∀ i < c.workerCount, (s.workers i).pc = .done) (hwriter : s.writer = .done) :
    (s.handled.map ProcessedEntry.origin).Perm c.scan := by
  rw [List.perm_iff_count]
  intro job
  have hjobs := (hf.drained 0 hw (by rw [hworkers 0 hw]; rfl)).2
  have hprocessed := (hf.written (by rw [hwriter]; rfl)).1
  have hpool : pooled c.workerCount (fun i => (s.workers i).pc.hand.count job) = 0 :=
    pooled_eq_zero.mpr (fun i hi => by rw [hworkers i hi]; rfl)
  have hconserved := hf.conserved job
  simp only [Snapshot.tally, hscanner, ScannerPc.rest, Queue.values, hjobs, hprocessed, hpool,
    hwriter, WriterPc.hand, List.map_nil, List.count_nil, Nat.zero_add, Nat.add_zero] at hconserved
  exact hconserved

theorem scanner_done {pc : ScannerPc} (ho : pc.over = true) (hw : pc ≠ .waiting) : pc = .done := by
  cases pc <;> first | rfl | exact absurd rfl hw | cases ho

theorem worker_done {pc : WorkerPc} (ho : pc.over = true) (hw : pc ≠ .waiting) : pc = .done := by
  cases pc <;> first | rfl | exact absurd rfl hw | cases ho

theorem writer_done {pc : WriterPc} (ho : pc.over = true) (hw : pc ≠ .waiting) : pc = .done := by
  cases pc <;> first | rfl | exact absurd rfl hw | cases ho

/-- Every thread of a pipeline has come to its end, and none has failed. -/
structure Ended (c : Config) (s : State) : Prop where
  clean : Clean c s
  scanner : s.scanner = .done
  workers : ∀ i < c.workerCount, (s.workers i).pc = .done
  writer : s.writer = .done

theorem Orderly.ended (ho : Orderly c s) (hm : s.main.settles = true) : Ended c s := by
  have hj := settles_joined hm
  have hnone := ho.standing.settled hm
  have hwaits : s.main.waits = true := by
    cases hp : s.main <;> rw [hp] at hm <;> first | rfl | cases hm
  have ha := ho.standing.alone hj
  rcases ho.standing.complete hwaits with hfailed | ⟨hstarted, hcreated⟩
  · rw [State.failed, hnone] at hfailed
    cases hfailed
  · have hscanner := scanner_done ha.scanner hcreated
    have hworkers : ∀ i < c.workerCount, (s.workers i).pc = .done := fun i hi =>
      worker_done (ha.workers i hi) (hstarted.workers i hi (by omega))
    have hwriter := writer_done ha.writer (hstarted.writer (by omega))
    refine ⟨⟨hnone, by rw [hscanner]; rfl, fun i hi => by rw [hworkers i hi]; rfl, ?_⟩, hscanner,
      hworkers, hwriter⟩
    rw [hwriter]
    rfl

/-- A run that publishes has recorded every job of the scan once. -/
theorem run_handled {v : Vault} {e : Bool} {ls : List Label}
    (h : run c x (State.start c v e) ls = some s) (hm : s.main.settles = true)
    (hw : 0 < c.workerCount) : (s.handled.map ProcessedEntry.origin).Perm c.scan := by
  have hended := (run_orderly h).ended hm
  exact (run_flow h hended.clean).handled hw hended.scanner hended.workers hended.writer

end LocalVault.Snapshot
