import LocalVault.Proofs.Joins
import LocalVault.Proofs.Results
import LocalVault.Snapshot.Parking

namespace LocalVault.Snapshot
open Library Repository

variable {c : Config} {x : Externals} {s t : State} {f : Failure} {stage : Stage}

/-! What ends and what is closed in a pipeline, whoever is parked. -/

/-- Nothing that is closed opens again. -/
structure Shutting (s t : State) : Prop where
  stop : s.stopRequested = true → t.stopRequested = true
  jobs : s.jobs.closed = true → t.jobs.closed = true
  processed : s.processed.closed = true → t.processed.closed = true
  jobCapacity : t.jobs.itemCapacity = s.jobs.itemCapacity
  processedCapacity : t.processed.itemCapacity = s.processed.itemCapacity

theorem Shutting.same (hstop : t.stopRequested = s.stopRequested)
    (hjobs : t.jobs.closed = s.jobs.closed) (hprocessed : t.processed.closed = s.processed.closed)
    (hj : t.jobs.itemCapacity = s.jobs.itemCapacity)
    (hp : t.processed.itemCapacity = s.processed.itemCapacity) : Shutting s t :=
  ⟨hstop.trans, hjobs.trans, hprocessed.trans, hj, hp⟩

/-- A thread goes on to the next stage of its `shutdown`. -/
theorem Shutting.shuts (f : Failure) (stage : Stage)
    (hstop : t.stopRequested = (s.shut f stage).stopRequested)
    (hjobs : t.jobs = (s.shut f stage).jobs) (hprocessed : t.processed = (s.shut f stage).processed) :
    Shutting s t := by
  refine ⟨fun h => ?_, fun h => ?_, fun h => ?_, ?_, ?_⟩
  · rw [hstop]
    cases stage <;> first | exact h | rfl
  · rw [hjobs]
    cases stage <;> first | exact h | rfl
  · rw [hprocessed]
    cases stage <;> first | exact h | rfl
  · rw [hjobs]
    cases stage <;> rfl
  · rw [hprocessed]
    cases stage <;> rfl

theorem ScannerMove.shutting (h : ScannerMove c s t) : Shutting s t := by
  cases h with
  | pushes job rest jobs h hp =>
    obtain ⟨-, -, -, rfl⟩ := Queue.push_accepted hp
    exact .same rfl rfl rfl rfl rfl
  | closes h => exact ⟨id, fun _ => rfl, id, rfl, rfl⟩
  | shuts f stage h => exact .shuts f stage rfl rfl rfl
  | _ => exact .same rfl rfl rfl rfl rfl

theorem WorkerMove.shutting {i : Nat} (h : WorkerMove c x s i t) : Shutting s t := by
  cases h with
  | pops job jobs h hp =>
    obtain ⟨-, n, -, hjobs⟩ := Queue.pop_item hp
    exact .same rfl (by rw [hjobs]; rfl) rfl (by rw [hjobs]; rfl) rfl
  | pushes p processed h hp =>
    obtain ⟨-, -, -, rfl⟩ := Queue.push_accepted hp
    exact .same rfl rfl rfl rfl rfl
  | closes h => exact ⟨id, id, fun _ => rfl, rfl, rfl⟩
  | shuts f stage h => exact .shuts f stage rfl rfl rfl
  | _ => exact .same rfl rfl rfl rfl rfl

theorem WriterMove.shutting (h : WriterMove c s t) : Shutting s t := by
  cases h with
  | pops p processed h hp =>
    obtain ⟨-, n, -, hprocessed⟩ := Queue.pop_item hp
    exact .same rfl rfl (by rw [hprocessed]) rfl (by rw [hprocessed])
  | shuts f stage h => exact .shuts f stage rfl rfl rfl
  | _ => exact .same rfl rfl rfl rfl rfl

theorem OtherMove.shutting (h : OtherMove c s t) : Shutting s t := by
  cases h with
  | progressShuts f stage h => exact .shuts f stage rfl rfl rfl
  | cancellerShuts f stage h => exact .shuts f stage rfl rfl rfl
  | _ => exact .same rfl rfl rfl rfl rfl

theorem MainMove.shutting (h : MainMove c s t) : Shutting s t := by
  cases h with
  | cancels f stage h => exact .shuts f stage rfl rfl rfl
  | shuts f stage h => exact .shuts f stage rfl rfl rfl
  | creates created h =>
    have hcreates := create_creates (c := c) (s := s) created
    generalize s.create c created = t at hcreates ⊢
    cases hcreates <;> exact .same rfl rfl rfl rfl rfl
  | _ => exact .same rfl rfl rfl rfl rfl

theorem Move.shutting (h : Move c x s t) : Shutting s t := by
  cases h with
  | scanner h => exact h.shutting
  | worker i hi h => exact h.shutting
  | writer h => exact h.shutting
  | main h => exact h.shutting
  | other h => exact h.shutting

/-- The stages of `shutdown` behind the stop request. -/
def Stage.stopped : Stage → Bool
  | .record | .requestStop => false
  | .closeJobs | .closeProcessed | .cancelProgress => true

theorem shut_stopped (h : stage.stopped = true → s.stopRequested = true) :
    (s.shut f stage).stopRequested = true ∨ stage = .record := by
  cases stage with
  | record => exact .inr rfl
  | requestStop => exact .inl rfl
  | closeJobs => exact .inl (h rfl)
  | closeProcessed => exact .inl (h rfl)
  | cancelProgress => exact .inl (h rfl)

/-- A worker that has left its loop. -/
def WorkerPc.out : WorkerPc → Bool
  | .leaving | .closing | .done => true
  | _ => false

/-- A writer that has left its loop. -/
def WriterPc.out : WriterPc → Bool
  | .ending | .committing true | .done => true
  | _ => false

/-- A thread is behind its loop only when no more items come, and behind the stop of its
`shutdown` when the stop is requested. -/
structure ScannerCloses (s : State) : Prop where
  done : s.scanner = .done → s.stopRequested = true ∨ s.jobs.closed = true
  stops : ∀ f stage, s.scanner = .shutting f stage → stage.stopped = true → s.stopRequested = true

structure WorkerCloses (s : State) (i : Nat) : Prop where
  out : (s.workers i).pc.out = true → s.stopRequested = true ∨ s.jobs.closed = true
  stops : ∀ f stage, (s.workers i).pc = .shutting f stage → stage.stopped = true →
    s.stopRequested = true

structure WriterCloses (s : State) : Prop where
  out : s.writer.out = true → s.stopRequested = true ∨ s.processed.closed = true
  stops : ∀ f stage, s.writer = .shutting f stage → stage.stopped = true → s.stopRequested = true

structure MainCloses (c : Config) (s : State) : Prop where
  stops : ∀ f stage, s.main = .shutting f stage ∨ s.main = .cancelling f stage →
    stage.stopped = true → s.stopRequested = true
  manned : s.main.waits = true → s.stopRequested = true ∨
    Started c (c.workerCount + 2) s.writer s.workers ∧ s.scanner ≠ .waiting

/-- The last worker closes the results. -/
def LastCloses (c : Config) (s : State) : Prop :=
  s.activeWorkers = 0 → s.processed.closed = true ∨ ∃ i < c.workerCount, (s.workers i).pc = .closing

section Same

variable (hs : Shutting s t)
include hs

theorem Shutting.orJobs (h : s.stopRequested = true ∨ s.jobs.closed = true) :
    t.stopRequested = true ∨ t.jobs.closed = true :=
  h.imp hs.stop hs.jobs

theorem Shutting.orProcessed (h : s.stopRequested = true ∨ s.processed.closed = true) :
    t.stopRequested = true ∨ t.processed.closed = true :=
  h.imp hs.stop hs.processed

theorem ScannerCloses.same (h : ScannerCloses s) (he : t.scanner = s.scanner) : ScannerCloses t where
  done hd := hs.orJobs (h.done (he ▸ hd))
  stops f stage hp hst := hs.stop (h.stops f stage (he ▸ hp) hst)

theorem WorkerCloses.same {i : Nat} (h : WorkerCloses s i) (he : (t.workers i).pc = (s.workers i).pc) :
    WorkerCloses t i where
  out hd := hs.orJobs (h.out (he ▸ hd))
  stops f stage hp hst := hs.stop (h.stops f stage (he ▸ hp) hst)

theorem WriterCloses.same (h : WriterCloses s) (he : t.writer = s.writer) : WriterCloses t where
  out hd := hs.orProcessed (h.out (he ▸ hd))
  stops f stage hp hst := hs.stop (h.stops f stage (he ▸ hp) hst)

theorem LastCloses.same (h : LastCloses c s) (ha : t.activeWorkers = s.activeWorkers)
    (hw : ∀ i, (s.workers i).pc = .closing → (t.workers i).pc = .closing) : LastCloses c t := by
  intro hzero
  rcases h (ha ▸ hzero) with hclosed | ⟨i, hi, hp⟩
  · exact .inl (hs.processed hclosed)
  · exact .inr ⟨i, hi, hw i hp⟩

theorem MainCloses.same (h : MainCloses c s) (he : t.main = s.main)
    (hu : ∀ n, Started c n s.writer s.workers → Started c n t.writer t.workers)
    (hc : s.scanner ≠ .waiting → t.scanner ≠ .waiting) : MainCloses c t where
  stops f stage hp hst := hs.stop (h.stops f stage (he ▸ hp) hst)
  manned hw := (h.manned (he ▸ hw)).imp hs.stop (fun hstarted => ⟨hu _ hstarted.1, hc hstarted.2⟩)

end Same

theorem ScannerMove.closing (hm : ScannerMove c s t) (h : ScannerCloses s) : ScannerCloses t := by
  cases hm with
  | fails f hf hp =>
    refine ⟨nofun, fun f' stage' hp' hst => ?_⟩
    cases hp'
    cases hst
  | rejects job e hp =>
    refine ⟨nofun, fun f' stage' hp' hst => ?_⟩
    cases hp'
    cases hst
  | closes hp => exact ⟨fun _ => .inr rfl, nofun⟩
  | shuts f stage hp =>
    rcases shut_stopped (f := f) (h.stops f stage hp) with hstop | rfl
    · exact ⟨fun _ => .inl hstop, fun _ _ _ _ => hstop⟩
    · refine ⟨nofun, fun f' stage' hp' hst => ?_⟩
      cases hp'
      cases hst
  | _ => exact ⟨nofun, nofun⟩

/-- The places of a worker between two calls of the queues. -/
def WorkerPc.between : WorkerPc → Bool
  | .beginning _ | .measuring _ | .opening _ _ | .reading _ | .storing _ _ | .compressing _ _
  | .publishing _ _ _ | .confirming _ | .finished _ => true
  | _ => false

/-- A worker goes on with its job, or throws. -/
def WorkerPc.Lands (pc : WorkerPc) : Prop := pc.between = true ∨ ∃ f, pc = .shutting f .record

theorem caught_lands (task : Task) (callback : Bool) (spool : List ChunkReferenceRecord)
    (f : Failure) : (caught c task callback spool f).Lands := by
  rcases caught_cases c task callback spool f with he | ⟨e, -, -, ⟨-, he⟩ | ⟨-, he⟩⟩
  · exact .inr ⟨f, he⟩
  · exact .inl (by rw [he]; rfl)
  · exact .inl (by rw [he]; rfl)

theorem appended_lands (r : Reading) (raw : Bytes) (object : StoredObject) :
    (appended c r raw object).Lands := by
  rcases appended_cases c r raw object with he | ⟨-, ⟨-, he⟩ | ⟨-, he⟩⟩
  · exact .inr he
  · exact .inl (by rw [he]; rfl)
  · exact .inl (by rw [he]; rfl)

theorem confirmed_lands (r : Reading) (after : PlatformFileMetadata) :
    (confirmed c x r after).Lands := by
  rcases confirmed_cases r after with ⟨f, he⟩ | ⟨-, -, he⟩
  · rw [he]
    exact caught_lands _ _ _ _
  · exact .inl (by rw [he]; rfl)

theorem accept_between (job : FileJob) : (accept job).between = true := by
  unfold accept
  split
  · split <;> rfl
  · rfl

/-- What a worker does on its own leads from its start to the first pop, and else to `Lands`. Out
of a call of a queue it can only throw. -/
theorem Works.lands {objects : Objects} {stop : Bool} {known : Known} {pc pc' : WorkerPc}
    (h : Works c x objects stop known pc pc') :
    pc = .starting ∧ pc' = .popping ∨
      pc'.Lands ∧ (pc.between = true ∨ pc.plain = true ∧ ∃ f, pc' = .shutting f .record) := by
  cases h with
  | starts => exact .inl ⟨rfl, rfl⟩
  | finds r raw object hs hf => exact .inr ⟨appended_lands _ _ _, .inl rfl⟩
  | fails _ task callback spool f hpc hf =>
    refine .inr ⟨caught_lands _ _ _ _, .inl ?_⟩
    cases pc <;> first | rfl | cases hpc
  | dies _ e hpc => exact .inr ⟨.inr ⟨_, rfl⟩, .inr ⟨hpc, _, rfl⟩⟩
  | _ => exact .inr ⟨.inl rfl, .inl rfl⟩

theorem WorkerCloses.lands {i : Nat} (h : (t.workers i).pc.Lands) : WorkerCloses t i := by
  rcases h with h | ⟨f, h⟩
  · refine ⟨fun hp => ?_, fun f' stage' hp _ => ?_⟩
    · cases hpc : (t.workers i).pc <;> rw [hpc] at h hp <;> first | cases hp; done | cases h
    · rw [hp] at h
      cases h
  · refine ⟨fun hp => ?_, fun f' stage' hp hst => ?_⟩
    · rw [h] at hp
      cases hp
    · rw [h] at hp
      cases hp
      cases hst

theorem WorkerCloses.inside {i : Nat} (hout : (t.workers i).pc.out = false)
    (hshut : (t.workers i).pc.shuts = false) : WorkerCloses t i := by
  refine ⟨fun hp => ?_, fun f' stage' hp _ => ?_⟩
  · rw [hout] at hp
    cases hp
  · rw [hp] at hshut
    cases hshut

theorem WorkerMove.closing {i : Nat} (hm : WorkerMove c x s i t) (h : WorkerCloses s i) :
    WorkerCloses t i := by
  cases hm with
  | works pc hw =>
    rcases hw.lands with ⟨-, rfl⟩ | ⟨hlands, -⟩
    · exact .inside (by rw [State.moveWorker, setWorker_same]; rfl)
        (by rw [State.moveWorker, setWorker_same]; rfl)
    · exact .lands (by rw [State.moveWorker, setWorker_same]; exact hlands)
  | pops job jobs hp hq => exact .lands (by rw [setWorker_same]; exact .inl (accept_between job))
  | confirms r after hp => exact .lands (by rw [setWorker_same]; exact confirmed_lands r after)
  | stores r raw compressed object known objects hp hs =>
    exact .lands (by rw [setWorker_same]; exact appended_lands r raw object)
  | leaves r raw compressed known e hp hs =>
    exact .lands (by rw [State.moveWorker, setWorker_same]; exact caught_lands _ _ _ _)
  | ended hp hq =>
    refine ⟨fun _ => (Queue.pop_ended hq).imp_right And.right, fun f' stage' hp' _ => ?_⟩
    rw [State.moveWorker, setWorker_same] at hp'
    cases hp'
  | rejects p large e hp =>
    exact .lands (by rw [State.moveWorker, setWorker_same]; exact .inr ⟨_, rfl⟩)
  | shuts f stage hp =>
    rcases shut_stopped (f := f) (h.stops f stage hp) with hstop | rfl
    · exact ⟨fun _ => .inl hstop, fun _ _ _ _ => hstop⟩
    · refine ⟨fun hp' => ?_, fun f' stage' hp' hst => ?_⟩
      · rw [State.moveWorker, setWorker_same] at hp'
        cases hp'
      · rw [State.moveWorker, setWorker_same] at hp'
        cases hp'
        cases hst
  | counts hp =>
    have hout := h.out (by rw [hp]; rfl)
    refine ⟨fun _ => hout, fun f' stage' hp' _ => ?_⟩
    rw [State.moveWorker, setWorker_same, goto_pc] at hp'
    split at hp' <;> cases hp'
  | closes hp =>
    have hout := h.out (by rw [hp]; rfl)
    refine ⟨fun _ => hout, fun f' stage' hp' _ => ?_⟩
    rw [State.moveWorker, setWorker_same] at hp'
    cases hp'
  | _ =>
    exact .inside (by simp [State.moveWorker, setWorker_same, WorkerPc.out])
      (by simp [State.moveWorker, setWorker_same, WorkerPc.shuts])

theorem WriterMove.closing (hm : WriterMove c s t) (h : WriterCloses s) : WriterCloses t := by
  cases hm with
  | fails f totals hf hp =>
    refine ⟨nofun, fun f' stage' hp' hst => ?_⟩
    cases hp'
    cases hst
  | breaks b e hb hr last hp =>
    refine ⟨nofun, fun f' stage' hp' hst => ?_⟩
    cases hp'
    cases hst
  | ended hp hq => exact ⟨fun _ => (Queue.pop_ended hq).imp_right And.right, nofun⟩
  | warns p w b b' pc hp hb hv hdb hr hpc =>
    rcases hpc with rfl | rfl <;> exact ⟨nofun, nofun⟩
  | inserts p e b b' id pc hp hb hv ht hdb hr hpc =>
    rcases hpc with rfl | rfl <;> exact ⟨nofun, nofun⟩
  | hashes p id b b' pc hp hb hdb hr hpc =>
    rcases hpc with rfl | rfl <;> exact ⟨nofun, nofun⟩
  | skips last b hp hb hr =>
    cases last with
    | false => exact ⟨nofun, nofun⟩
    | true => exact ⟨fun _ => h.out (by rw [hp]; rfl), nofun⟩
  | commits last b hp hb hr hs =>
    cases last with
    | false => exact ⟨nofun, nofun⟩
    | true => exact ⟨fun _ => h.out (by rw [hp]; rfl), nofun⟩
  | abandons hp hs => exact ⟨fun _ => .inl hs, nofun⟩
  | concludes hp hs => exact ⟨fun _ => h.out (by rw [hp]; rfl), nofun⟩
  | shuts f stage hp =>
    rcases shut_stopped (f := f) (h.stops f stage hp) with hstop | rfl
    · exact ⟨fun _ => .inl hstop, fun _ _ _ _ => hstop⟩
    · refine ⟨nofun, fun f' stage' hp' hst => ?_⟩
      cases hp'
      cases hst
  | _ => exact ⟨nofun, nofun⟩

theorem Started.full {n : Nat} {writer : WriterPc} {workers : Nat → Worker}
    (h : Started c n writer workers) (hn : c.workerCount + 2 ≤ n) :
    Started c (c.workerCount + 2) writer workers :=
  ⟨fun _ => h.writer (by omega), fun i hi _ => h.workers i hi (by omega)⟩

/-- The calling thread runs no `shutdown`. -/
def MainPc.calm : MainPc → Bool
  | .shutting _ _ | .cancelling _ _ => false
  | _ => true

theorem MainCloses.calm (hcalm : t.main.calm = true)
    (hmanned : t.main.waits = true → t.stopRequested = true ∨
      Started c (c.workerCount + 2) t.writer t.workers ∧ t.scanner ≠ .waiting) : MainCloses c t where
  stops f stage hp _ := by
    rcases hp with hp | hp <;> rw [hp] at hcalm <;> cases hcalm
  manned := hmanned

theorem MainMove.closing (hm : MainMove c s t) (hs : Standing c s) (h : MainCloses c s) :
    MainCloses c t := by
  cases hm with
  | advances pc ha =>
    generalize hmain : s.main = old at ha
    have hmanned : old.waits = true → s.stopRequested = true ∨
        Started c (c.workerCount + 2) s.writer s.workers ∧ s.scanner ≠ .waiting :=
      fun hw => h.manned (hmain ▸ hw)
    cases ha with
    | cancels he =>
      refine ⟨fun f stage hp hst => ?_, nofun⟩
      rcases hp with hp | hp <;> cases hp
      cases hst
    | skips hstop => exact .calm rfl (fun _ => .inl hstop)
    | fails n e =>
      refine ⟨fun f stage hp hst => ?_, nofun⟩
      rcases hp with hp | hp <;> cases hp
      cases hst
    | joinsScanner _ | joinsWorkers _ | joinsProgress _ | concludes _ | finalizes | checksLast _ =>
      exact .calm rfl (fun _ => hmanned rfl)
    | _ => exact .calm rfl nofun
  | registers hp he => exact .calm rfl nofun
  | cancels f stage hp =>
    rcases shut_stopped (f := f) (h.stops f stage (.inr hp)) with hstop | rfl
    · exact ⟨fun _ _ _ _ => hstop, fun _ => .inl hstop⟩
    · refine ⟨fun f' stage' hp' hst => ?_, nofun⟩
      rcases hp' with hp' | hp' <;> cases hp'
      cases hst
  | creates created hp =>
    have hcreates := create_creates (c := c) (s := s) created
    generalize s.create c created = t at hcreates ⊢
    cases hcreates with
    | scanner _ hn => exact .calm rfl (fun _ => .inr ⟨(hs.started _ hp).full hn, nofun⟩)
    | _ => exact .calm rfl nofun
  | shuts f stage hp =>
    rcases shut_stopped (f := f) (h.stops f stage (.inl hp)) with hstop | rfl
    · exact ⟨fun _ _ _ _ => hstop, fun _ => .inl hstop⟩
    · refine ⟨fun f' stage' hp' hst => ?_, nofun⟩
      rcases hp' with hp' | hp' <;> cases hp'
      cases hst
  | joinsWriter hp ho => exact .calm rfl (fun _ => h.manned (by rw [hp]; rfl))
  | unregisters hp ho => exact .calm rfl (fun _ => h.manned (by rw [hp]; rfl))
  | times now hp => exact .calm rfl (fun _ => h.manned (by rw [hp]; rfl))
  | publishes now db hp hdb => exact .calm rfl (fun _ => h.manned (by rw [hp]; rfl))

theorem WorkerMove.last {i : Nat} (hm : WorkerMove c x s i t) (hi : i < c.workerCount)
    (hs : Sound c s) (h : LastCloses c s) : LastCloses c t := by
  have hframe := hm.frame
  have hshutting := hm.shutting
  -- but for the last two steps of a worker nobody is counted out, and nobody closes
  have hsame : t.activeWorkers = s.activeWorkers → (s.workers i).pc ≠ .closing → LastCloses c t := by
    intro hactive hpc
    refine h.same hshutting hactive fun j hj => ?_
    by_cases hji : j = i
    · subst hji
      exact absurd hj hpc
    · rwa [hframe.others j hji]
  cases hm with
  | counts hp =>
    intro hzero
    have hpos : 0 < s.activeWorkers := by
      rw [hs.active]
      refine Nat.lt_of_lt_of_le ?_ (le_pooled hi)
      simp [hp, WorkerPc.active]
    change s.activeWorkers - 1 = 0 at hzero
    have hone : s.activeWorkers = 1 := by omega
    refine .inr ⟨i, hi, ?_⟩
    rw [State.moveWorker, setWorker_same, goto_pc, if_pos hone]
  | closes hp => exact fun _ => .inl rfl
  | works pc hw =>
    refine hsame rfl fun he => ?_
    have := hw.running
    rw [he] at hw
    rcases hw.lands with ⟨hp, -⟩ | ⟨-, hp | ⟨hp, -⟩⟩ <;> cases hp
  | shuts f stage hp =>
    refine hsame ?_ fun he => ?_
    · cases stage <;> rfl
    · rw [hp] at he
      cases he
  | _ => exact hsame rfl (by simp [*])

/-- What is closed when the threads of a pipeline end. -/
structure Closes (c : Config) (s : State) : Prop where
  scanner : ScannerCloses s
  workers : ∀ i, WorkerCloses s i
  writer : WriterCloses s
  main : MainCloses c s
  last : LastCloses c s

theorem closes_start {v : Vault} {e : Bool} (hw : 0 < c.workerCount) :
    Closes c (State.start c v e) := by
  refine ⟨⟨nofun, nofun⟩, fun i => ⟨nofun, nofun⟩, ⟨nofun, nofun⟩, ⟨?_, nofun⟩, fun hzero => ?_⟩
  · rintro f stage (hp | hp) <;> cases hp
  · exact absurd hzero hw.ne'

theorem MainMove.activeWorkers (h : MainMove c s t) : t.activeWorkers = s.activeWorkers := by
  cases h with
  | cancels f stage hp => exact shut_untouched.activeWorkers
  | shuts f stage hp => exact shut_untouched.activeWorkers
  | creates created hp =>
    have hcreates := create_creates (c := c) (s := s) created
    generalize s.create c created = t at hcreates ⊢
    cases hcreates <;> rfl
  | _ => rfl

theorem Move.closes (hm : Move c x s t) (ho : Orderly c s) (h : Closes c s) : Closes c t := by
  have hs := hm.shutting
  refine ⟨?_, fun i => ?_, ?_, ?_, ?_⟩
  · rcases hm.scanner_cases ho.young with he | hmove | ⟨-, he⟩
    · exact h.scanner.same hs he
    · exact hmove.closing h.scanner
    · exact ⟨by simp [he], by simp [he]⟩
  · rcases hm.worker_cases ho.young i with he | hmove | ⟨-, he⟩
    · exact (h.workers i).same hs (by rw [he])
    · exact hmove.closing (h.workers i)
    · exact .inside (by rw [he]; rfl) (by rw [he]; rfl)
  · rcases hm.writer_cases ho.young with he | hmove | ⟨-, he⟩
    · exact h.writer.same hs he
    · exact hmove.closing h.writer
    · exact ⟨by simp [he, WriterPc.out], by simp [he]⟩
  · have hf := hm.failed
    have hundisturbed : Undisturbed c s t → MainCloses c t := fun hu =>
      h.main.same hs hu.main (fun _ => hu.started) hu.created
    cases hm with
    | scanner hm => exact hundisturbed (hm.undisturbed hf)
    | worker i hi hm => exact hundisturbed (hm.undisturbed hi hf)
    | writer hm => exact hundisturbed (hm.undisturbed hf)
    | other hm => exact hundisturbed (hm.undisturbed hf)
    | main hm => exact hm.closing ho.standing h.main
  · cases hm with
    | scanner hm =>
      exact h.last.same hs hm.frame.activeWorkers fun i hp => by rwa [hm.frame.workers]
    | worker i hi hm => exact hm.last hi ho.sound h.last
    | writer hm =>
      exact h.last.same hs hm.frame.activeWorkers fun i hp => by rwa [hm.frame.workers]
    | other hm =>
      exact h.last.same hs hm.frame.activeWorkers fun i hp => by rwa [hm.frame.workers]
    | main hm =>
      refine h.last.same hs hm.activeWorkers fun i hp => ?_
      rcases hm.worker_cases ho.young i with he | ⟨hwaiting, -⟩
      · rwa [he]
      · rw [hwaiting] at hp
        cases hp

end LocalVault.Snapshot
