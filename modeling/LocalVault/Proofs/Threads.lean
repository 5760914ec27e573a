import LocalVault.Library.Pool
import LocalVault.Proofs.Moves

namespace LocalVault.Snapshot
open Library Repository

variable {c : Config} {x : Externals} {s t : State} {f : Failure} {stage : Stage}

/-- A first error has been handed to `shutdown`. -/
def State.failed (s : State) : Prop := s.firstError.isSome = true

/-- What `shutdown` does not touch. -/
structure Untouched (s t : State) : Prop where
  vault : t.vault = s.vault
  batch : t.batch = s.batch
  activeWorkers : t.activeWorkers = s.activeWorkers
  progressFinished : t.progressFinished = s.progressFinished
  externalStop : t.externalStop = s.externalStop
  registered : t.registered = s.registered
  totals : t.totals = s.totals
  skippedEntries : t.skippedEntries = s.skippedEntries
  handled : t.handled = s.handled
  scanner : t.scanner = s.scanner
  workers : t.workers = s.workers
  writer : t.writer = s.writer
  progress : t.progress = s.progress
  canceller : t.canceller = s.canceller
  main : t.main = s.main
  jobItems : t.jobs.items = s.jobs.items
  processedItems : t.processed.items = s.processed.items

theorem shut_untouched : Untouched s (s.shut f stage) := by
  cases stage <;> constructor <;> rfl

/-- Whoever runs it, `shutdown` sets the first error before anything else. -/
theorem shut_failed_record : (s.shut f .record).failed := by
  change (s.firstError.or (some f.error)).isSome = true
  cases s.firstError <;> rfl

theorem shut_failed (h : s.failed) : (s.shut f stage).failed := by
  cases stage with
  | record => exact shut_failed_record
  | requestStop => exact h
  | closeJobs => exact h
  | closeProcessed => exact h
  | cancelProgress => exact h

theorem setWorker_same {w : Worker} {i : Nat} : (s.setWorker i w).workers i = w := by
  simp [State.setWorker]

theorem setWorker_other {w : Worker} {i j : Nat} (h : j ≠ i) :
    (s.setWorker i w).workers j = s.workers j := by
  simp [State.setWorker, h]

@[simp] theorem goto_pc {w : Worker} {pc : WorkerPc} : (w.goto pc).pc = pc := rfl

/-- Only a thread that was created and has not ended makes a move, and it does
not go back in front of its creation. -/
theorem ScannerMove.running (h : ScannerMove c s t) :
    s.scanner.over = false ∧ t.scanner ≠ .waiting := by
  cases h with
  | starts h => exact ⟨by rw [h]; rfl, nofun⟩
  | fails f hf h => rcases h with h | ⟨rest, h⟩ <;> exact ⟨by rw [h]; rfl, nofun⟩
  | emits job rest h => exact ⟨by rw [h]; rfl, nofun⟩
  | finishes h he => exact ⟨by rw [h]; rfl, nofun⟩
  | pushes job rest jobs h hp => exact ⟨by rw [h]; rfl, nofun⟩
  | refused job rest h hp => exact ⟨by rw [h]; rfl, nofun⟩
  | rejects job e h => exact ⟨by rw [h]; rfl, nofun⟩
  | closes h => exact ⟨by rw [h]; rfl, nofun⟩
  | shuts f stage h => exact ⟨by rw [h]; rfl, by cases stage <;> exact nofun⟩

theorem caught_created {task : Task} {callback : Bool} {spool : List ChunkReferenceRecord} :
    caught c task callback spool f ≠ .waiting := by
  unfold caught
  split
  · split
    · exact nofun
    · split <;> exact nofun
  · exact nofun

theorem appended_created {r : Reading} {raw : Bytes} {object : StoredObject} :
    appended c r raw object ≠ .waiting := by
  unfold appended
  split
  · exact caught_created
  · split
    · exact caught_created
    · split
      · exact caught_created
      · split <;> exact nofun

theorem Works.running {objects : Objects} {stop : Bool} {known : Known} {pc pc' : WorkerPc}
    (h : Works c x objects stop known pc pc') : pc.over = false ∧ pc' ≠ .waiting := by
  cases h with
  | fails _ t callback spool f hpc hf =>
    refine ⟨?_, caught_created⟩
    cases pc <;> first | rfl | cases hpc
  | dies _ e hpc =>
    refine ⟨?_, nofun⟩
    cases pc <;> first | rfl | cases hpc
  | finds r raw object hs hf => exact ⟨rfl, appended_created⟩
  | _ => exact ⟨rfl, nofun⟩

theorem WorkerMove.running {i : Nat} (h : WorkerMove c x s i t) :
    (s.workers i).pc.over = false ∧ (t.workers i).pc ≠ .waiting := by
  have hself : ∀ {u : State} {w : Worker}, w.pc ≠ .waiting → ((u.setWorker i w).workers i).pc ≠ .waiting := by
    intro u w hw
    rw [setWorker_same]
    exact hw
  cases h with
  | works pc h => exact ⟨h.running.1, hself h.running.2⟩
  | pops job jobs h hp =>
    refine ⟨by rw [h]; rfl, hself ?_⟩
    change accept job ≠ .waiting
    unfold accept
    split
    · split <;> exact nofun
    · exact nofun
  | confirms r after h =>
    refine ⟨by rw [h]; rfl, hself ?_⟩
    change confirmed c x r after ≠ .waiting
    unfold confirmed
    split
    · exact caught_created
    · exact nofun
  | finishes p h => exact ⟨by rw [h]; rfl, hself nofun⟩
  | ended h hp => exact ⟨by rw [h]; rfl, hself nofun⟩
  | stores r raw compressed object known objects h hs =>
    exact ⟨by rw [h]; rfl, hself appended_created⟩
  | leaves r raw compressed known e h hs => exact ⟨by rw [h]; rfl, hself caught_created⟩
  | pushes p processed h hp => exact ⟨by rw [h]; rfl, hself nofun⟩
  | refused p h hp => exact ⟨by rw [h]; rfl, hself nofun⟩
  | oversized p h hp => exact ⟨by rw [h]; rfl, hself nofun⟩
  | rejects p large e h => exact ⟨by rw [h]; rfl, hself nofun⟩
  | shuts f stage h => exact ⟨by rw [h]; rfl, hself (by cases stage <;> exact nofun)⟩
  | counts h =>
    refine ⟨by rw [h]; rfl, hself ?_⟩
    change (if s.activeWorkers = 1 then WorkerPc.closing else .done) ≠ .waiting
    split <;> exact nofun
  | closes h => exact ⟨by rw [h]; rfl, hself nofun⟩

theorem WriterMove.running (h : WriterMove c s t) : s.writer.over = false ∧ t.writer ≠ .waiting := by
  have hquiet : ∀ {pc : WriterPc}, pc = .popping ∨ pc = .committing false → pc ≠ .waiting := by
    rintro pc (rfl | rfl) <;> exact nofun
  cases h with
  | fails f totals hf h =>
    refine ⟨?_, nofun⟩
    cases hw : s.writer <;> first | rfl | (rw [hw] at h; cases h)
  | starts h => exact ⟨by rw [h]; rfl, nofun⟩
  | pops p processed h hp => exact ⟨by rw [h]; rfl, nofun⟩
  | ended h hp => exact ⟨by rw [h]; rfl, nofun⟩
  | warns p w b b' pc h hb hv hdb hr hpc => exact ⟨by rw [h]; rfl, hquiet hpc⟩
  | inserts p e b b' id pc h hb hv ht hdb hr hpc => exact ⟨by rw [h]; rfl, hquiet hpc⟩
  | begins p e b id db references h => exact ⟨by rw [h]; rfl, nofun⟩
  | refers p id ref rest b db totals now h => exact ⟨by rw [h]; rfl, nofun⟩
  | hashes p id b b' pc h hb hdb hr hpc => exact ⟨by rw [h]; rfl, hquiet hpc⟩
  | skips last b h => exact ⟨by rw [h]; rfl, by cases last <;> exact nofun⟩
  | commits last b h => exact ⟨by rw [h]; rfl, by cases last <;> exact nofun⟩
  | breaks b e hb hr last h => exact ⟨by rw [h]; rfl, nofun⟩
  | abandons h => exact ⟨by rw [h]; rfl, nofun⟩
  | concludes h => exact ⟨by rw [h]; rfl, nofun⟩
  | shuts f stage h => exact ⟨by rw [h]; rfl, by cases stage <;> exact nofun⟩

theorem ScannerMove.awake (h : ScannerMove c s t) : s.scanner ≠ .waiting := by
  intro hw
  have := h.running.1
  rw [hw] at this
  cases this

theorem WorkerMove.awake {i : Nat} (h : WorkerMove c x s i t) : (s.workers i).pc ≠ .waiting := by
  intro hw
  have := h.running.1
  rw [hw] at this
  cases this

theorem WriterMove.awake (h : WriterMove c s t) : s.writer ≠ .waiting := by
  intro hw
  have := h.running.1
  rw [hw] at this
  cases this

/-- The parts of the state that the scanner leaves alone. -/
structure ScannerFrame (s t : State) : Prop where
  vault : t.vault = s.vault
  batch : t.batch = s.batch
  activeWorkers : t.activeWorkers = s.activeWorkers
  registered : t.registered = s.registered
  totals : t.totals = s.totals
  skippedEntries : t.skippedEntries = s.skippedEntries
  handled : t.handled = s.handled
  workers : t.workers = s.workers
  writer : t.writer = s.writer
  progress : t.progress = s.progress
  canceller : t.canceller = s.canceller
  main : t.main = s.main
  processedItems : t.processed.items = s.processed.items

theorem ScannerMove.frame (h : ScannerMove c s t) : ScannerFrame s t := by
  cases h with
  | shuts f stage h =>
    have hu : Untouched s (s.shut f stage) := shut_untouched
    exact ⟨hu.vault, hu.batch, hu.activeWorkers, hu.registered, hu.totals, hu.skippedEntries,
      hu.handled, hu.workers, hu.writer, hu.progress, hu.canceller, hu.main, hu.processedItems⟩
  | _ => constructor <;> rfl

/-- The parts of the state that a worker leaves alone. -/
structure WorkerFrame (i : Nat) (s t : State) : Prop where
  db : t.vault.db = s.vault.db
  temporary : t.vault.temporary = s.vault.temporary
  batch : t.batch = s.batch
  registered : t.registered = s.registered
  totals : t.totals = s.totals
  skippedEntries : t.skippedEntries = s.skippedEntries
  handled : t.handled = s.handled
  scanner : t.scanner = s.scanner
  others : ∀ j, j ≠ i → t.workers j = s.workers j
  writer : t.writer = s.writer
  progress : t.progress = s.progress
  canceller : t.canceller = s.canceller
  main : t.main = s.main

theorem WorkerMove.frame {i : Nat} (h : WorkerMove c x s i t) : WorkerFrame i s t := by
  cases h with
  | shuts f stage h =>
    have hu : Untouched s (s.shut f stage) := shut_untouched
    refine ⟨congrArg Vault.db hu.vault, congrArg Vault.temporary hu.vault, hu.batch, hu.registered,
      hu.totals, hu.skippedEntries, hu.handled, hu.scanner, ?_, hu.writer, hu.progress,
      hu.canceller, hu.main⟩
    intro j hj
    rw [State.moveWorker, setWorker_other hj, hu.workers]
  | _ => exact ⟨rfl, rfl, rfl, rfl, rfl, rfl, rfl, rfl, fun j hj => setWorker_other hj, rfl, rfl, rfl, rfl⟩

/-- The parts of the state that the writer leaves alone. -/
structure WriterFrame (s t : State) : Prop where
  objects : t.vault.objects = s.vault.objects
  temporary : t.vault.temporary = s.vault.temporary
  activeWorkers : t.activeWorkers = s.activeWorkers
  registered : t.registered = s.registered
  scanner : t.scanner = s.scanner
  workers : t.workers = s.workers
  progress : t.progress = s.progress
  canceller : t.canceller = s.canceller
  main : t.main = s.main
  jobItems : t.jobs.items = s.jobs.items

theorem WriterMove.frame (h : WriterMove c s t) : WriterFrame s t := by
  cases h with
  | shuts f stage h =>
    have hu : Untouched s (s.shut f stage) := shut_untouched
    exact ⟨congrArg Vault.objects hu.vault, congrArg Vault.temporary hu.vault, hu.activeWorkers,
      hu.registered, hu.scanner, hu.workers, hu.progress, hu.canceller, hu.main, hu.jobItems⟩
  | _ => constructor <;> rfl

/-- The parts of the state that the remaining threads leave alone. -/
structure OtherFrame (s t : State) : Prop where
  vault : t.vault = s.vault
  batch : t.batch = s.batch
  activeWorkers : t.activeWorkers = s.activeWorkers
  registered : t.registered = s.registered
  totals : t.totals = s.totals
  skippedEntries : t.skippedEntries = s.skippedEntries
  handled : t.handled = s.handled
  scanner : t.scanner = s.scanner
  workers : t.workers = s.workers
  writer : t.writer = s.writer
  main : t.main = s.main
  jobItems : t.jobs.items = s.jobs.items
  processedItems : t.processed.items = s.processed.items

theorem OtherMove.frame (h : OtherMove c s t) : OtherFrame s t := by
  cases h with
  | progressShuts f stage h =>
    have hu : Untouched s (s.shut f stage) := shut_untouched
    exact ⟨hu.vault, hu.batch, hu.activeWorkers, hu.registered, hu.totals, hu.skippedEntries,
      hu.handled, hu.scanner, hu.workers, hu.writer, hu.main, hu.jobItems, hu.processedItems⟩
  | cancellerShuts f stage h =>
    have hu : Untouched s (s.shut f stage) := shut_untouched
    exact ⟨hu.vault, hu.batch, hu.activeWorkers, hu.registered, hu.totals, hu.skippedEntries,
      hu.handled, hu.scanner, hu.workers, hu.writer, hu.main, hu.jobItems, hu.processedItems⟩
  | _ => constructor <;> rfl

/-- The threads created so far, up to the last one. -/
def MainPc.created : MainPc → Option Nat
  | .checking | .announcing | .checkingAgain | .registering | .cancelling _ _ | .deciding => some 0
  | .creating n => some n
  | _ => none

/-- After the first `n` threads the others wait to be created. -/
structure Uncreated (n : Nat) (s : State) : Prop where
  progress : n = 0 → s.progress = .waiting
  writer : n ≤ 1 → s.writer = .waiting
  workers : ∀ i, n ≤ i + 2 → (s.workers i).pc = .waiting
  scanner : s.scanner = .waiting

def Young (s : State) : Prop := ∀ n, s.main.created = some n → Uncreated n s

theorem young_start {v : Vault} {e : Bool} : Young (State.start c v e) :=
  fun _ _ => ⟨fun _ => rfl, fun _ => rfl, fun _ _ => rfl, rfl⟩

theorem Uncreated.main {n : Nat} {pc : MainPc} (h : Uncreated n s) :
    Uncreated n { s with main := pc } :=
  ⟨h.progress, h.writer, h.workers, h.scanner⟩

/-- Which thread comes next. -/
inductive Creates (c : Config) (s : State) : Nat → State → Prop
  | progress : Creates c s 0 { s with progress := .running, main := .creating 1 }
  | writer : Creates c s 1 { s with writer := .starting, main := .creating 2 }
  | worker (i : Nat) (hi : i < c.workerCount) :
      Creates c s (i + 2) ({ s with main := .creating (i + 3) }.moveWorker i .starting)
  | scanner (n : Nat) (hn : c.workerCount + 2 ≤ n) :
      Creates c s n { s with scanner := .starting, main := .joiningScanner }

theorem create_creates (n : Nat) : Creates c s n (s.create c n) := by
  unfold State.create
  split
  · rename_i hn
    subst hn
    exact .progress
  · split
    · rename_i hn
      subst hn
      exact .writer
    · split
      · obtain ⟨i, rfl⟩ : ∃ i, n = i + 2 := ⟨n - 2, by omega⟩
        exact .worker i (by omega)
      · exact .scanner n (by omega)

/-- A thread is created: of the others nothing changes. -/
theorem Creates.young {n : Nat} (hc : Creates c s n t) (h : Uncreated n s) : Young t := by
  intro m hm
  cases hc with
  | progress =>
    cases hm
    exact ⟨nofun, fun _ => h.writer (by omega), fun i hi => h.workers i (by omega), h.scanner⟩
  | writer =>
    cases hm
    exact ⟨nofun, nofun, fun i hi => h.workers i (by omega), h.scanner⟩
  | worker i hi =>
    cases hm
    refine ⟨nofun, by omega, fun j hj => ?_, h.scanner⟩
    rw [State.moveWorker, setWorker_other (by omega)]
    exact h.workers j (by omega)
  | scanner n hn => cases hm

theorem Move.young (h : Young s) (hm : Move c x s t) : Young t := by
  cases hm with
  | scanner hm =>
    intro n hn
    rw [hm.frame.main] at hn
    exact absurd (h n hn).scanner hm.awake
  | worker i hi hm =>
    intro n hn
    rw [hm.frame.main] at hn
    have hu := h n hn
    have hlt : ¬ n ≤ i + 2 := fun hle => hm.awake (hu.workers i hle)
    refine ⟨by omega, by omega, ?_, hm.frame.scanner ▸ hu.scanner⟩
    intro j hj
    rw [hm.frame.others j (by omega)]
    exact hu.workers j hj
  | writer hm =>
    intro n hn
    rw [hm.frame.main] at hn
    have hu := h n hn
    have hlt : ¬ n ≤ 1 := fun hle => hm.awake (hu.writer hle)
    exact ⟨by omega, fun hle => absurd hle hlt, by rw [hm.frame.workers]; exact hu.workers,
      hm.frame.scanner ▸ hu.scanner⟩
  | other hm =>
    intro n hn
    rw [hm.frame.main] at hn
    have hu := h n hn
    refine ⟨?_, by rw [hm.frame.writer]; exact hu.writer, by rw [hm.frame.workers]; exact hu.workers,
      hm.frame.scanner ▸ hu.scanner⟩
    intro hz
    have hw := hu.progress hz
    cases hm with
    | progressFails e hp => simp [hw] at hp
    | progressEnds hp => simp [hw] at hp
    | progressShuts f stage hp => simp [hw] at hp
    | cancellerShuts f stage hp => exact shut_untouched.progress.trans hw
    | requests he hr => exact hw
    | notes he hr => exact hw
  | main hm =>
    cases hm with
    | creates created hc => exact (create_creates created).young (h created (by rw [hc]; rfl))
    | advances pc ha =>
      intro n hn
      refine (h n ?_).main
      generalize s.main = m at ha
      cases ha <;> first | exact hn | cases hn
    | registers hr he =>
      intro n hn
      cases hn
      have hu := h 0 (by rw [hr]; rfl)
      exact ⟨hu.progress, hu.writer, hu.workers, hu.scanner⟩
    | cancels f stage hc =>
      intro n hn
      have hu := h 0 (by rw [hc]; rfl)
      have hs : Untouched s (s.shut f stage) := shut_untouched
      have hz : n = 0 := by
        cases stage <;> cases hn <;> rfl
      subst hz
      exact ⟨fun hz => hs.progress.trans (hu.progress hz), fun hz => hs.writer.trans (hu.writer hz),
        fun i hi => (congrArg (fun w => (w i).pc) hs.workers).trans (hu.workers i hi),
        hs.scanner.trans hu.scanner⟩
    | shuts f stage hc =>
      intro n hn
      cases stage <;> cases hn
    | joinsWriter hj ho => exact nofun
    | unregisters hj ho => exact nofun
    | times now hc => exact nofun
    | publishes now db hp hdb => exact nofun

/-- The calling thread does nothing to a worker but create it. -/
theorem MainMove.worker_cases (hy : Young s) (h : MainMove c s t) (i : Nat) :
    t.workers i = s.workers i ∨
      ((s.workers i).pc = .waiting ∧ t.workers i = (s.workers i).goto .starting) := by
  cases h with
  | creates created hc =>
    have hu := hy created (by rw [hc]; rfl)
    have hcreates := create_creates (c := c) (s := s) created
    generalize s.create c created = u at hcreates
    cases hcreates with
    | worker j hj =>
      by_cases hij : i = j
      · subst hij
        exact Or.inr ⟨hu.workers i (by omega), setWorker_same⟩
      · exact Or.inl (setWorker_other hij)
    | _ => exact Or.inl rfl
  | cancels f stage hc => exact Or.inl (congrFun shut_untouched.workers i)
  | shuts f stage hc => exact Or.inl (congrFun shut_untouched.workers i)
  | _ => exact Or.inl rfl

/-- How a worker can change in a move: by itself, or when it is created. -/
theorem Move.worker_cases (hy : Young s) (h : Move c x s t) (i : Nat) :
    t.workers i = s.workers i ∨ WorkerMove c x s i t ∨
      ((s.workers i).pc = .waiting ∧ t.workers i = (s.workers i).goto .starting) := by
  cases h with
  | scanner h => exact Or.inl (congrFun h.frame.workers i)
  | worker j hj h =>
    by_cases hij : i = j
    · subst hij
      exact Or.inr (Or.inl h)
    · exact Or.inl (h.frame.others i hij)
  | writer h => exact Or.inl (congrFun h.frame.workers i)
  | other h => exact Or.inl (congrFun h.frame.workers i)
  | main h => exact (h.worker_cases hy i).imp_right Or.inr

/-- How the scanner can change in a move. -/
theorem Move.scanner_cases (hy : Young s) (h : Move c x s t) :
    t.scanner = s.scanner ∨ ScannerMove c s t ∨ (s.scanner = .waiting ∧ t.scanner = .starting) := by
  cases h with
  | scanner h => exact Or.inr (Or.inl h)
  | worker j hj h => exact Or.inl h.frame.scanner
  | writer h => exact Or.inl h.frame.scanner
  | other h => exact Or.inl h.frame.scanner
  | main h =>
    cases h with
    | creates created hc =>
      have hu := hy created (by rw [hc]; rfl)
      have hcreates := create_creates (c := c) (s := s) created
      generalize s.create c created = u at hcreates
      cases hcreates with
      | scanner n hn => exact Or.inr (Or.inr ⟨hu.scanner, rfl⟩)
      | _ => exact Or.inl rfl
    | cancels f stage hc => exact Or.inl shut_untouched.scanner
    | shuts f stage hc => exact Or.inl shut_untouched.scanner
    | _ => exact Or.inl rfl

/-- How the writer can change in a move. -/
theorem Move.writer_cases (hy : Young s) (h : Move c x s t) :
    t.writer = s.writer ∨ WriterMove c s t ∨ (s.writer = .waiting ∧ t.writer = .starting) := by
  cases h with
  | scanner h => exact Or.inl h.frame.writer
  | worker j hj h => exact Or.inl h.frame.writer
  | writer h => exact Or.inr (Or.inl h)
  | other h => exact Or.inl h.frame.writer
  | main h =>
    cases h with
    | creates created hc =>
      have hu := hy created (by rw [hc]; rfl)
      have hcreates := create_creates (c := c) (s := s) created
      generalize s.create c created = u at hcreates
      cases hcreates with
      | writer => exact Or.inr (Or.inr ⟨hu.writer (by omega), rfl⟩)
      | _ => exact Or.inl rfl
    | cancels f stage hc => exact Or.inl shut_untouched.writer
    | shuts f stage hc => exact Or.inl shut_untouched.writer
    | _ => exact Or.inl rfl

/-- The rule of invariants for what concerns one worker at a time. -/
theorem run_worker_invariant {P : Worker → Prop} {v : Vault} {e : Bool} {ls : List Label}
    (hstart : P ⟨.waiting, [], [], [], [], false⟩)
    (hcreate : ∀ w, P w → w.pc = .waiting → P (w.goto .starting))
    (hstep : ∀ s t i, WorkerMove c x s i t → P (s.workers i) → P (t.workers i))
    (h : run c x (State.start c v e) ls = some s) (i : Nat) : P (s.workers i) := by
  suffices hall : Young s ∧ ∀ i, P (s.workers i) from hall.2 i
  refine run_invariant (P := fun s => Young s ∧ ∀ i, P (s.workers i)) ?_
    ⟨young_start, fun _ => hstart⟩ h
  rintro s t ⟨hy, hp⟩ hm
  refine ⟨hm.young hy, fun j => ?_⟩
  rcases hm.worker_cases hy j with he | hw | ⟨hpc, he⟩
  · rw [he]
    exact hp j
  · exact hstep s t j hw (hp j)
  · rw [he]
    exact hcreate _ (hp j) hpc

end LocalVault.Snapshot
