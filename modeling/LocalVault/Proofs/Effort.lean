import LocalVault.Proofs.Advancing
import LocalVault.Proofs.Shelving

namespace LocalVault.Snapshot
open Library Repository

variable {c : Config} {x : Externals} {s t : State} {i : Nat} {l : Label}

/-! How many steps the threads have in front of them. A bound for the pipeline counts the jobs of
the scan and the blocks that are read. -/

def Stage.effort : Stage → Nat
  | .record => 5
  | .requestStop => 4
  | .closeJobs => 3
  | .closeProcessed => 2
  | .cancelProgress => 1

def ScannerPc.effort (c : Config) : ScannerPc → Nat
  | .waiting | .starting => 8 + 24 * c.scan.length
  | .emitting rest => 7 + 24 * rest.length
  | .pushing _ rest => 30 + 24 * rest.length
  | .refused _ => 6
  | .closing => 1
  | .shutting _ stage => stage.effort
  | .done => 0

/-- A result in the queue, which the writer records with its references. -/
def ProcessedEntry.effort (p : ProcessedEntry) : Nat := 4 + (p.chunkReferences.getD []).length

/-- A file whose attempt has failed. -/
def Task.effort (c : Config) (t : Task) : Nat := 14 + 10 * (attemptCount c - t.attempt - 1)

def WorkerPc.effort (c : Config) : WorkerPc → Nat
  | .waiting | .starting => 9
  | .popping => 8
  | .beginning t => t.effort c + 5
  | .measuring t => t.effort c + 4
  | .opening t _ => t.effort c + 3
  | .reading r => r.task.effort c + 2 + r.spool.length
  | .storing r _ => r.task.effort c + 6 + r.spool.length
  | .compressing r _ => r.task.effort c + 5 + r.spool.length
  | .publishing r _ _ => r.task.effort c + 4 + r.spool.length
  | .confirming r => r.task.effort c + 1 + r.spool.length
  | .finished p => 10 + p.effort
  | .pushing p => 9 + p.effort
  | .refused _ _ => 8
  | .shutting _ stage => 2 + stage.effort
  | .leaving => 2
  | .closing => 1
  | .done => 0

def WriterPc.effort : WriterPc → Nat
  | .waiting | .starting => 9
  | .popping => 8
  | .inserting p => 7 + p.effort
  | .referring _ _ rest => 10 + rest.length
  | .committing last => if last then 6 else 9
  | .ending => 7
  | .shutting _ stage => stage.effort
  | .done => 0

def MainPc.effort (c : Config) : MainPc → Nat
  | .checking => 28 + c.workerCount
  | .announcing => 27 + c.workerCount
  | .checkingAgain => 26 + c.workerCount
  | .registering => 25 + c.workerCount
  | .cancelling _ stage => 19 + c.workerCount + stage.effort
  | .deciding => 19 + c.workerCount
  | .creating created => 16 + (c.workerCount + 2 - created)
  | .shutting _ stage => 10 + stage.effort
  | .joiningScanner => 10
  | .joiningWorkers => 9
  | .joiningWriter => 8
  | .joiningProgress => 7
  | .unregistering => 6
  | .rethrowing => 5
  | .concluding => 4
  | .finalizing => 3
  | .checkingLast => 2
  | .publishing => 1
  | .failing _ | .published => 0

def ProgressPc.effort : ProgressPc → Nat
  | .waiting | .running => 6
  | .shutting _ stage => stage.effort
  | .done => 0

def CancellerPc.effort : CancellerPc → Nat
  | .shutting _ stage => stage.effort
  | .idle | .done => 0

def crewEffort (c : Config) (workers : Nat → Worker) : Nat :=
  pooled c.workerCount fun i => (workers i).pc.effort c

def backlog (items : List (ProcessedEntry × Nat)) : Nat :=
  (items.map fun item => item.1.effort).sum

/-- The request that may come from outside. -/
def requestEffort (externalStop : Bool) : Nat := if externalStop then 0 else 6

def State.effort (c : Config) (s : State) : Nat :=
  s.scanner.effort c + crewEffort c s.workers + s.writer.effort + s.main.effort c +
    s.progress.effort + s.canceller.effort + requestEffort s.externalStop +
    22 * s.jobs.items.length + backlog s.processed.items

/-- The steps behind a block that is read: it is stored, and its reference is recorded. -/
def Label.credit : Label → Nat
  | .worker _ (.reads _) => 5
  | _ => 0

theorem afterStage_effort {pc : Type} (measure : pc → Nat) (shutting : Failure → Stage → pc)
    (finished : pc) (base : Nat) (hfinished : measure finished ≤ base)
    (hshutting : ∀ f stage, measure (shutting f stage) = base + stage.effort) (f : Failure)
    (stage : Stage) : measure (afterStage shutting finished f stage) + 1 ≤ base + stage.effort := by
  cases stage with
  | cancelProgress => exact Nat.succ_le_succ hfinished
  | _ => exact (congrArg Nat.succ (hshutting f _)).le

theorem ScannerMove.effort (hm : ScannerMove c s t) :
    t.scanner.effort c + 22 * t.jobs.items.length + 1 ≤
      s.scanner.effort c + 22 * s.jobs.items.length := by
  cases hm with
  | starts hp =>
    simp only [hp, ScannerPc.effort]
    omega
  | fails f hf hp =>
    rcases hp with hp | ⟨rest, hp⟩
    · simp only [hp, ScannerPc.effort, Stage.effort]
      omega
    · simp only [hp, ScannerPc.effort, Stage.effort]
      omega
  | emits job rest hp =>
    simp only [hp, ScannerPc.effort, List.length_cons]
    omega
  | finishes hp he =>
    simp only [hp, ScannerPc.effort]
    omega
  | pushes job rest jobs hp hq =>
    obtain ⟨-, -, -, rfl⟩ := Queue.push_accepted hq
    simp only [hp, ScannerPc.effort, List.length_append, List.length_singleton]
    omega
  | refused job rest hp hq =>
    simp only [hp, ScannerPc.effort]
    omega
  | rejects job e hp =>
    simp only [hp, ScannerPc.effort, Stage.effort]
    omega
  | closes hp =>
    simp only [hp, ScannerPc.effort, Queue.close]
    omega
  | shuts f stage hp =>
    have hafter := afterStage_effort (ScannerPc.effort c) .shutting .done 0 (Nat.le_refl 0)
      (fun _ _ => (Nat.zero_add _).symm) f stage
    have hu : Untouched s (s.shut f stage) := shut_untouched
    rw [hp]
    change ScannerPc.effort c (afterStage .shutting .done f stage) +
      22 * (s.shut f stage).jobs.items.length + 1 ≤ stage.effort + _
    rw [hu.jobItems]
    omega

theorem caught_effort (task : Task) (callback : Bool) (spool : List ChunkReferenceRecord)
    (f : Failure) : (caught c task callback spool f).effort c ≤ task.effort c := by
  rcases caught_cases c task callback spool f with he | ⟨e, -, -, ⟨hmore, he⟩ | ⟨-, he⟩⟩
  · rw [he]
    simp only [WorkerPc.effort, Stage.effort, Task.effort]
    omega
  · rw [he]
    simp only [WorkerPc.effort, Task.effort]
    omega
  · rw [he]
    simp only [WorkerPc.effort, ProcessedEntry.effort, unreadable, Task.effort, Option.getD_none,
      List.length_nil]
    omega

theorem appended_effort (r : Reading) (raw : Bytes) (object : StoredObject) :
    (appended c r raw object).effort c ≤ r.task.effort c + 3 + r.spool.length := by
  have hcaught : ∀ f, (caught c r.task true r.spool f).effort c ≤
      r.task.effort c + 3 + r.spool.length := fun f =>
    (caught_effort r.task true r.spool f).trans (by omega)
  have hspool : (r.append raw object).spool.length = r.spool.length + 1 := by simp [Reading.append]
  have htask : (r.append raw object).task = r.task := rfl
  unfold appended
  split
  · exact hcaught _
  · split
    · exact hcaught _
    · split
      · exact hcaught _
      · split
        · simp only [WorkerPc.effort, hspool, htask]
          omega
        · simp only [WorkerPc.effort, hspool, htask]
          omega

theorem confirmed_effort (r : Reading) (after : PlatformFileMetadata) :
    (confirmed c x r after).effort c ≤ r.task.effort c + r.spool.length := by
  unfold confirmed
  split
  · exact (caught_effort _ _ _ _).trans (Nat.le_add_right _ _)
  · simp only [WorkerPc.effort, ProcessedEntry.effort, stable, Task.effort, Option.getD_some]
    omega

theorem accept_effort (job : FileJob) : (accept job).effort c ≤ 29 := by
  have hattempts : attemptCount c ≤ 2 := by
    unfold attemptCount
    split <;> omega
  unfold accept
  split
  · split
    · simp only [WorkerPc.effort, Task.effort]
      omega
    · simp [WorkerPc.effort, ProcessedEntry.effort, passed]
  · simp [WorkerPc.effort, ProcessedEntry.effort, passed]

theorem attempt_effort {pc : WorkerPc} {task : Task} {callback : Bool}
    {spool : List ChunkReferenceRecord} (h : pc.attempt = some (task, callback, spool)) :
    task.effort c + 1 ≤ pc.effort c := by
  cases pc with
  | measuring | opening | reading | confirming | storing | compressing | publishing =>
    cases h
    simp only [WorkerPc.effort]
    omega
  | _ => cases h

theorem Works.effort {objects : Objects} {stop : Bool} {known : Known} {pc pc' : WorkerPc}
    (hw : Works c x objects stop known pc pc') : pc'.effort c + 1 ≤ pc.effort c ∨
      ∃ r raw, pc = .reading r ∧ pc' = .storing (r.deliver raw) raw := by
  cases hw with
  | reads r raw hs hne hsize => exact .inr ⟨r, raw, rfl, rfl⟩
  | starts => exact .inl (Nat.le_refl 9)
  | begins task => exact .inl (Nat.le_refl _)
  | measures task before hs => exact .inl (Nat.le_refl _)
  | opens task before hs => exact .inl (Nat.le_refl _)
  | ends r hs =>
    left
    simp only [WorkerPc.effort]
    omega
  | finds r raw object hs hf =>
    left
    have := appended_effort (c := c) r raw object
    simp only [WorkerPc.effort] at this ⊢
    omega
  | misses r raw hs hf =>
    left
    simp only [WorkerPc.effort]
    omega
  | compresses r raw compressed hs hc =>
    left
    simp only [WorkerPc.effort]
    omega
  | fails _ task callback spool f hpc hf =>
    left
    have hcaught := caught_effort (c := c) task callback spool f
    have hattempt := attempt_effort (c := c) hpc
    omega
  | dies _ e hpc =>
    left
    cases pc with
    | starting | popping | beginning | finished | pushing =>
      simp only [WorkerPc.effort, Stage.effort, ProcessedEntry.effort, Task.effort]
      omega
    | _ => cases hpc

theorem backlog_append (items : List (ProcessedEntry × Nat)) (p : ProcessedEntry) (n : Nat) :
    backlog (items ++ [(p, n)]) = backlog items + p.effort := by
  simp [backlog]

theorem moveWorker_pc {pc : WorkerPc} : ((s.moveWorker i pc).workers i).pc = pc := by
  rw [State.moveWorker, setWorker_same, goto_pc]

/-- A worker that leaves the queues as they are. -/
theorem effort_moved {pc : WorkerPc} (hpc : (t.workers i).pc = pc)
    (hjobs : t.jobs.items = s.jobs.items) (hprocessed : t.processed.items = s.processed.items)
    (hless : pc.effort c + 1 ≤ (s.workers i).pc.effort c) :
    (t.workers i).pc.effort c + 22 * t.jobs.items.length + backlog t.processed.items + 1 ≤
      (s.workers i).pc.effort c + 22 * s.jobs.items.length + backlog s.processed.items := by
  rw [hpc, hjobs, hprocessed]
  omega

theorem WorkerMove.effort (hm : WorkerMove c x s i t) :
    (t.workers i).pc.effort c + 22 * t.jobs.items.length + backlog t.processed.items + 1 ≤
        (s.workers i).pc.effort c + 22 * s.jobs.items.length + backlog s.processed.items ∨
      ∃ r raw, (s.workers i).pc = .reading r ∧ t = s.moveWorker i (.storing (r.deliver raw) raw) := by
  cases hm with
  | works pc hw =>
    rcases hw.effort with hless | ⟨r, raw, hp, rfl⟩
    · exact .inl (effort_moved moveWorker_pc rfl rfl hless)
    · exact .inr ⟨r, raw, hp, rfl⟩
  | pops job jobs hp hq =>
    left
    obtain ⟨-, n, hitems, -⟩ := Queue.pop_item hq
    have haccept := accept_effort (c := c) job
    rw [setWorker_same, goto_pc, hp, hitems]
    change _ + 22 * jobs.items.length + backlog s.processed.items + 1 ≤ 8 + _ + _
    rw [List.length_cons]
    omega
  | confirms r after hp =>
    have hconfirmed := confirmed_effort (c := c) (x := x) r after
    refine .inl (effort_moved (by rw [setWorker_same, goto_pc]) rfl rfl ?_)
    rw [hp]
    change _ ≤ r.task.effort c + 1 + r.spool.length
    omega
  | finishes p hp =>
    refine .inl (effort_moved (by rw [setWorker_same, goto_pc]) rfl rfl ?_)
    rw [hp]
    change 9 + p.effort + 1 ≤ 10 + p.effort
    omega
  | ended hp hq =>
    refine .inl (effort_moved moveWorker_pc rfl rfl ?_)
    rw [hp]
    simp [WorkerPc.effort]
  | stores r raw compressed object known objects hp hs =>
    have happended := appended_effort (c := c) r raw object
    refine .inl (effort_moved (by rw [setWorker_same, goto_pc]) rfl rfl ?_)
    rw [hp]
    change _ ≤ r.task.effort c + 4 + r.spool.length
    omega
  | leaves r raw compressed known e hp hs =>
    have hcaught := caught_effort (c := c) r.task true r.spool ⟨e, true⟩
    refine .inl (effort_moved moveWorker_pc rfl rfl ?_)
    rw [hp]
    change _ ≤ r.task.effort c + 4 + r.spool.length
    omega
  | pushes p processed hp hq =>
    left
    obtain ⟨-, -, -, rfl⟩ := Queue.push_accepted hq
    rw [moveWorker_pc, hp]
    change 8 + 22 * s.jobs.items.length + backlog (s.processed.items ++ [(p, _)]) + 1 ≤
      9 + p.effort + _ + _
    rw [backlog_append]
    omega
  | refused p hp hq =>
    refine .inl (effort_moved moveWorker_pc rfl rfl ?_)
    rw [hp]
    change 8 + 1 ≤ 9 + p.effort
    omega
  | oversized p hp hq =>
    refine .inl (effort_moved moveWorker_pc rfl rfl ?_)
    rw [hp]
    change 8 + 1 ≤ 9 + p.effort
    omega
  | rejects p large e hp =>
    refine .inl (effort_moved moveWorker_pc rfl rfl ?_)
    rw [hp]
    simp [WorkerPc.effort, Stage.effort]
  | shuts f stage hp =>
    have hafter := afterStage_effort (WorkerPc.effort c) .shutting .leaving 2 (Nat.le_refl 2)
      (fun _ _ => rfl) f stage
    have hu : Untouched s (s.shut f stage) := shut_untouched
    refine .inl (effort_moved moveWorker_pc hu.jobItems hu.processedItems ?_)
    rw [hp]
    exact hafter
  | counts hp =>
    refine .inl (effort_moved moveWorker_pc rfl rfl ?_)
    rw [hp]
    split
    · simp [WorkerPc.effort]
    · simp [WorkerPc.effort]
  | closes hp =>
    refine .inl (effort_moved moveWorker_pc rfl rfl ?_)
    rw [hp]
    simp [WorkerPc.effort]

theorem throws_effort {pc : WriterPc} (h : pc.throws = true) : 6 ≤ pc.effort := by
  cases pc with
  | starting | popping | inserting | referring =>
    simp only [WriterPc.effort]
    omega
  | committing last => cases last <;> simp [WriterPc.effort]
  | _ => cases h

theorem WriterMove.effort (hm : WriterMove c s t) :
    t.writer.effort + backlog t.processed.items + 1 ≤
      s.writer.effort + backlog s.processed.items := by
  have hnext : ∀ {pc : WriterPc}, pc = .popping ∨ pc = .committing false → pc.effort ≤ 9 := by
    rintro pc (rfl | rfl)
    · exact Nat.le_succ 8
    · exact Nat.le_refl 9
  cases hm with
  | starts hp =>
    rw [hp]
    change 8 + backlog s.processed.items + 1 ≤ 9 + _
    omega
  | fails f totals hf hp =>
    have hthrows := throws_effort hp
    change 5 + backlog s.processed.items + 1 ≤ _
    omega
  | pops p processed hp hq =>
    obtain ⟨-, n, hitems, -⟩ := Queue.pop_item hq
    rw [hp, hitems]
    change 7 + p.effort + backlog processed.items + 1 ≤ 8 + backlog ((p, n) :: processed.items)
    simp only [backlog, List.map_cons, List.sum_cons]
    omega
  | ended hp hq =>
    rw [hp]
    change 7 + backlog s.processed.items + 1 ≤ 8 + _
    omega
  | warns p w b b' pc hp hb hv hdb hr hpc =>
    have hpc := hnext hpc
    rw [hp]
    change pc.effort + backlog s.processed.items + 1 ≤ 7 + (4 + _) + _
    omega
  | inserts p e b b' id pc hp hb hv ht hdb hr hpc =>
    have hpc := hnext hpc
    rw [hp]
    change pc.effort + backlog s.processed.items + 1 ≤ 7 + (4 + _) + _
    omega
  | begins p e b id db references hp hb hv ht hdb hrefs hmax =>
    rw [hp]
    change 10 + references.length + backlog s.processed.items + 1 ≤
      7 + (4 + (p.chunkReferences.getD []).length) + _
    rw [hrefs, Option.getD_some]
    omega
  | refers p id ref rest b db totals now hp hb hdb ht =>
    rw [hp]
    change 10 + rest.length + backlog s.processed.items + 1 ≤ 10 + (ref :: rest).length + _
    rw [List.length_cons]
    omega
  | hashes p id b b' pc hp hb hdb hr hpc =>
    have hpc := hnext hpc
    rw [hp]
    change pc.effort + backlog s.processed.items + 1 ≤ 10 + 0 + _
    omega
  | skips last b hp hb hr =>
    rw [hp]
    cases last with
    | true =>
      change 0 + backlog s.processed.items + 1 ≤ 6 + _
      omega
    | false =>
      change 8 + backlog s.processed.items + 1 ≤ 9 + _
      omega
  | commits last b hp hb hr hs =>
    rw [hp]
    cases last with
    | true =>
      change 0 + backlog s.processed.items + 1 ≤ 6 + _
      omega
    | false =>
      change 8 + backlog s.processed.items + 1 ≤ 9 + _
      omega
  | breaks b e hb hr last hp =>
    have hthrows : 6 ≤ s.writer.effort := throws_effort (by rw [hp]; rfl)
    change 5 + backlog s.processed.items + 1 ≤ _
    omega
  | abandons hp hs =>
    rw [hp]
    change 0 + backlog s.processed.items + 1 ≤ 7 + _
    omega
  | concludes hp hs =>
    rw [hp]
    change 6 + backlog s.processed.items + 1 ≤ 7 + _
    omega
  | shuts f stage hp =>
    have hafter := afterStage_effort WriterPc.effort .shutting .done 0 (Nat.le_refl 0)
      (fun _ _ => (Nat.zero_add _).symm) f stage
    have hu : Untouched s (s.shut f stage) := shut_untouched
    rw [hp]
    change WriterPc.effort (afterStage .shutting .done f stage) +
      backlog (s.shut f stage).processed.items + 1 ≤ stage.effort + _
    rw [hu.processedItems]
    omega

theorem OtherMove.effort (hm : OtherMove c s t) :
    t.progress.effort + t.canceller.effort + requestEffort t.externalStop + 1 ≤
      s.progress.effort + s.canceller.effort + requestEffort s.externalStop := by
  cases hm with
  | progressFails e hp =>
    rw [hp]
    change 5 + s.canceller.effort + requestEffort s.externalStop + 1 ≤ 6 + _ + _
    omega
  | progressEnds hp =>
    rw [hp]
    change 0 + s.canceller.effort + requestEffort s.externalStop + 1 ≤ 6 + _ + _
    omega
  | progressShuts f stage hp =>
    have hafter := afterStage_effort ProgressPc.effort .shutting .done 0 (Nat.le_refl 0)
      (fun _ _ => (Nat.zero_add _).symm) f stage
    have hu : Untouched s (s.shut f stage) := shut_untouched
    rw [hp]
    change ProgressPc.effort (afterStage .shutting .done f stage) +
      (s.shut f stage).canceller.effort + requestEffort (s.shut f stage).externalStop + 1 ≤ stage.effort + _ + _
    rw [hu.canceller, hu.externalStop]
    omega
  | cancellerShuts f stage hp =>
    have hafter := afterStage_effort CancellerPc.effort .shutting .done 0 (Nat.le_refl 0)
      (fun _ _ => (Nat.zero_add _).symm) f stage
    have hu : Untouched s (s.shut f stage) := shut_untouched
    rw [hp]
    change (s.shut f stage).progress.effort +
      CancellerPc.effort (afterStage .shutting .done f stage) + requestEffort (s.shut f stage).externalStop + 1 ≤ _ + stage.effort + _
    rw [hu.progress, hu.externalStop]
    omega
  | requests he hr =>
    rw [he]
    change s.progress.effort + 5 + 0 + 1 ≤ _ + _ + 6
    omega
  | notes he hr =>
    rw [he]
    change s.progress.effort + s.canceller.effort + 0 + 1 ≤ _ + _ + 6
    omega

theorem Advances.effort {pc pc' : MainPc} (ha : Advances c s pc pc') :
    pc'.effort c + 1 ≤ pc.effort c := by
  cases ha with
  | throws _ f ht =>
    change 0 + 1 ≤ _
    cases pc with
    | failing f => cases ht
    | published => cases ht
    | _ =>
      simp only [MainPc.effort]
      omega
  | _ =>
    simp only [MainPc.effort, Stage.effort]
    omega

/-- When one worker moves, the others have as much in front of them as before. -/
theorem crewEffort_change (hi : i < c.workerCount) (workers workers' : Nat → Worker)
    (h : ∀ j, j ≠ i → workers' j = workers j) :
    crewEffort c workers' + (workers i).pc.effort c =
      crewEffort c workers + (workers' i).pc.effort c :=
  pooled_change hi fun j hj => congrArg (fun w => w.pc.effort c) (h j hj)

theorem ScannerMove.externalStop (hm : ScannerMove c s t) : t.externalStop = s.externalStop := by
  cases hm with
  | shuts f stage => exact shut_untouched.externalStop
  | _ => rfl

theorem WorkerMove.externalStop (hm : WorkerMove c x s i t) : t.externalStop = s.externalStop := by
  cases hm with
  | shuts f stage =>
    have hu : Untouched s (s.shut f stage) := shut_untouched
    exact hu.externalStop
  | _ => rfl

theorem WriterMove.externalStop (hm : WriterMove c s t) : t.externalStop = s.externalStop := by
  cases hm with
  | shuts f stage => exact shut_untouched.externalStop
  | _ => rfl

/-- A thread that is created has as much in front of it as before. -/
theorem Creates.effort {n : Nat} (hc : Creates c s n t) (hs : s.main = .creating n)
    (hu : Uncreated n s) : t.effort c + 1 ≤ s.effort c := by
  cases hc with
  | progress =>
    simp only [State.effort, hs, hu.progress rfl, MainPc.effort, ProgressPc.effort]
    omega
  | writer =>
    simp only [State.effort, hs, hu.writer (Nat.le_refl 1), MainPc.effort, WriterPc.effort]
    omega
  | worker i hi =>
    have hcrew := crewEffort_change (c := c) hi s.workers
      ({ s with main := .creating (i + 3) }.moveWorker i .starting).workers
      fun j hj => setWorker_other hj
    rw [moveWorker_pc, hu.workers i (Nat.le_refl _)] at hcrew
    simp only [State.effort, State.moveWorker, State.setWorker, hs, MainPc.effort,
      WorkerPc.effort] at hcrew ⊢
    omega
  | scanner _ hn =>
    simp only [State.effort, hs, hu.scanner, MainPc.effort, ScannerPc.effort]
    omega

theorem MainMove.effort (hm : MainMove c s t) (hy : Young s) : t.effort c + 1 ≤ s.effort c := by
  cases hm with
  | advances pc ha =>
    have hpc := ha.effort
    simp only [State.effort]
    omega
  | registers hp he =>
    simp only [State.effort, hp, MainPc.effort]
    omega
  | cancels f stage hp =>
    have hafter := afterStage_effort (MainPc.effort c) .cancelling .deciding (19 + c.workerCount)
      (Nat.le_refl _) (fun _ _ => rfl) f stage
    have hu : Untouched s (s.shut f stage) := shut_untouched
    simp only [State.effort, hp, hu.scanner, hu.workers, hu.writer, hu.progress, hu.canceller,
      hu.externalStop, hu.jobItems, hu.processedItems]
    change _ ≤ _ + (19 + c.workerCount + stage.effort) + _ + _ + _ + _ + _
    omega
  | creates n hp => exact (create_creates n).effort hp (hy n (by rw [hp]; rfl))
  | shuts f stage hp =>
    have hafter := afterStage_effort (MainPc.effort c) .shutting .joiningScanner 10
      (Nat.le_refl _) (fun _ _ => rfl) f stage
    have hu : Untouched s (s.shut f stage) := shut_untouched
    simp only [State.effort, hp, hu.scanner, hu.workers, hu.writer, hu.progress, hu.canceller,
      hu.externalStop, hu.jobItems, hu.processedItems]
    change _ ≤ _ + (10 + stage.effort) + _ + _ + _ + _ + _
    omega
  | joinsWriter hp ho =>
    simp only [State.effort, hp, MainPc.effort]
    omega
  | unregisters hp ho =>
    simp only [State.effort, hp, MainPc.effort]
    omega
  | times now hp =>
    simp only [State.effort, hp, MainPc.effort]
    omega
  | publishes now db hp hdb =>
    simp only [State.effort, hp, MainPc.effort]
    omega

/-- A step takes from what there is to do, but for a block that is read. -/
theorem step_effort (hy : Young s) (h : step c x s l = some t) :
    t.effort c + 1 ≤ s.effort c + l.credit := by
  cases l with
  | scanner a =>
    have hm := stepScanner_move h
    have hless := hm.effort
    have hf := hm.frame
    simp only [State.effort, hf.workers, hf.writer, hf.main, hf.progress, hf.canceller,
      hf.processedItems, hm.externalStop]
    omega
  | worker i a =>
    simp only [step] at h
    split at h
    · rename_i hi
      have hm := stepWorker_move h
      have hf := hm.frame
      have hcrew := crewEffort_change (c := c) hi s.workers t.workers hf.others
      rcases hm.effort with hless | ⟨r, raw, hp, rfl⟩
      · simp only [State.effort, hf.scanner, hf.writer, hf.main, hf.progress, hf.canceller,
          hm.externalStop]
        omega
      · have hreads := stepWorker_reads h r raw hp
          moveWorker_pc
        subst hreads
        rw [moveWorker_pc, hp] at hcrew
        simp only [State.effort, State.moveWorker, State.setWorker, WorkerPc.effort, Label.credit,
          Reading.deliver] at hcrew ⊢
        omega
    · cases h
  | writer a =>
    have hm := stepWriter_move h
    have hless := hm.effort
    have hf := hm.frame
    simp only [State.effort, hf.scanner, hf.workers, hf.main, hf.progress, hf.canceller,
      hf.jobItems, hm.externalStop]
    omega
  | progress a =>
    have hm := stepProgress_move (c := c) h
    have hless := hm.effort
    have hf := hm.frame
    simp only [State.effort, hf.scanner, hf.workers, hf.writer, hf.main, hf.jobItems,
      hf.processedItems]
    omega
  | canceller =>
    have hm := stepCanceller_move (c := c) h
    have hless := hm.effort
    have hf := hm.frame
    simp only [State.effort, hf.scanner, hf.workers, hf.writer, hf.main, hf.jobItems,
      hf.processedItems]
    omega
  | requestExternalStop =>
    have hm := stepRequest_move h
    have hless := hm.effort
    have hf := hm.frame
    simp only [State.effort, hf.scanner, hf.workers, hf.writer, hf.main, hf.jobItems,
      hf.processedItems]
    omega
  | main a => exact ((stepMain_move h).effort hy).trans (Nat.le_add_right _ _)

/-- A thread of the pipeline takes a step. -/
def Action.moves : Action → Bool
  | .goes _ _ => true
  | _ => false

/-- A worker reads a block of a file, or finds its end. -/
def Action.reads : Action → Bool
  | .goes (.worker _ (.reads _)) _ => true
  | _ => false

theorem credit_reads (chosen : Option Thread) :
    l.credit = 5 * (Action.goes l chosen).reads.toNat := by
  cases l with
  | worker i a => cases a <;> rfl
  | _ => rfl

theorem Parking.step_effort {u v : Parking} {a : Action} (hy : Young u.pipeline)
    (h : u.step c x a = some v) : Young v.pipeline ∧
      v.pipeline.effort c + a.moves.toNat ≤ u.pipeline.effort c + 5 * a.reads.toNat := by
  cases a with
  | goes l chosen =>
    simp only [Parking.step] at h
    split at h
    · cases h
    · obtain ⟨t, ht, h⟩ := Option.bind_eq_some_iff.mp h
      obtain ⟨parked, -, h⟩ := Option.bind_eq_some_iff.mp h
      cases h
      rw [← credit_reads]
      exact ⟨(step_move ht).young hy, Snapshot.step_effort hy ht⟩
  | parks thread =>
    simp only [Parking.step] at h
    split at h
    · cases h
      exact ⟨hy, Nat.le_refl _⟩
    · cases h
  | wakes thread =>
    simp only [Parking.step] at h
    split at h
    · cases h
      exact ⟨hy, Nat.le_refl _⟩
    · cases h

theorem runs_effort {u v : Parking} {actions : List Action} (hy : Young u.pipeline)
    (h : runs (Parking.step c x) u actions = some v) :
    v.pipeline.effort c + actions.countP Action.moves ≤
      u.pipeline.effort c + 5 * actions.countP Action.reads := by
  induction actions generalizing u with
  | nil =>
    cases h
    exact Nat.le_refl _
  | cons a actions ih =>
    obtain ⟨w, hw, h⟩ := Option.bind_eq_some_iff.mp h
    obtain ⟨hyoung, hstep⟩ := Parking.step_effort hy hw
    have hrest := ih hyoung h
    have hmoves : (a :: actions).countP Action.moves =
        actions.countP Action.moves + a.moves.toNat := by
      rw [List.countP_cons]
      cases a.moves <;> rfl
    have hreads : (a :: actions).countP Action.reads =
        actions.countP Action.reads + a.reads.toNat := by
      rw [List.countP_cons]
      cases a.reads <;> rfl
    omega

theorem start_effort {v : Vault} {e : Bool} : (State.start c v e).effort c ≤
    24 * c.scan.length + 10 * c.workerCount + 57 := by
  have hcrew : crewEffort c (State.start c v e).workers = c.workerCount * 9 := by
    simp [crewEffort, pooled, State.start, WorkerPc.effort]
  have hrequest : requestEffort e ≤ 6 := by cases e <;> decide
  change 8 + 24 * c.scan.length + crewEffort c (State.start c v e).workers + 9 +
    (28 + c.workerCount) + 6 + 0 + requestEffort e + 22 * 0 + 0 ≤ _
  rw [hcrew]
  omega

/-- The pipeline takes no more than so many steps for each job of the scan, for each worker and for
each block that is read, whoever goes first, waits or fails. -/
theorem pipeline_bounded {v : Vault} {e : Bool} {actions : List Action} {u : Parking}
    (h : runs (Parking.step c x) (.start c v e) actions = some u) :
    actions.countP Action.moves ≤
      24 * c.scan.length + 10 * c.workerCount + 57 + 5 * actions.countP Action.reads := by
  have hrun := runs_effort young_start h
  have hstart := start_effort (c := c) (v := v) (e := e)
  change _ ≤ (State.start c v e).effort c + _ at hrun
  omega

theorem pipeline_bounded_writer : sampleActions.countP Action.moves = 24 ∧
    sampleActions.countP Action.moves ≤ 24 * sampleConfig.scan.length +
      10 * sampleConfig.workerCount + 57 + 5 * sampleActions.countP Action.reads := by
  have hrun : (runs (Parking.step sampleConfig sampleExternals)
      (.start sampleConfig sampleVault false) sampleActions).isSome = true := by decide +kernel
  obtain ⟨u, hu⟩ := Option.isSome_iff_exists.mp hrun
  exact ⟨by decide, pipeline_bounded hu⟩

end LocalVault.Snapshot
