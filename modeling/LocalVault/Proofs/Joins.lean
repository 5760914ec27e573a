import LocalVault.Proofs.Errors

namespace LocalVault.Snapshot
open Library Repository

variable {c : Config} {x : Externals} {s t : State} {f : Failure} {stage : Stage}

/-- How many joins lie behind the calling thread: of the scanner, the workers,
the writer, the progress thread, and of whoever runs the stop callback. -/
def MainPc.joined : MainPc → Nat
  | .joiningWorkers => 1
  | .joiningWriter => 2
  | .joiningProgress => 3
  | .unregistering => 4
  | .rethrowing | .concluding | .finalizing | .checkingLast | .publishing | .failing _ | .published => 5
  | _ => 0

/-- The calling thread has not set the stop callback up. -/
def MainPc.early : MainPc → Bool
  | .checking | .announcing | .checkingAgain | .registering => true
  | _ => false

/-- The calling thread is behind the creation of threads, in the pipeline. -/
def MainPc.waits : MainPc → Bool
  | .joiningScanner | .joiningWorkers | .joiningWriter | .joiningProgress | .unregistering
  | .rethrowing | .concluding | .finalizing | .checkingLast | .publishing | .published => true
  | _ => false

/-- The calling thread is on its way to publish. -/
def MainPc.settles : MainPc → Bool
  | .concluding | .finalizing | .checkingLast | .publishing | .published => true
  | _ => false

/-- The first `n` threads, without the progress thread, were created. -/
structure Started (c : Config) (n : Nat) (writer : WriterPc) (workers : Nat → Worker) : Prop where
  writer : 1 < n → writer ≠ .waiting
  workers : ∀ i < c.workerCount, i + 2 < n → (workers i).pc ≠ .waiting

/-- Where the other threads stand, seen from the calling thread. -/
structure Standing (c : Config) (s : State) : Prop where
  early : s.main.early = true →
    s.registered = false ∧ s.canceller = .idle ∧ s.firstError = none
  started : ∀ n, s.main = .creating n → Started c n s.writer s.workers
  complete : s.main.waits = true →
    s.failed ∨ Started c (c.workerCount + 2) s.writer s.workers ∧ s.scanner ≠ .waiting
  scanner : 1 ≤ s.main.joined → s.scanner.over = true
  workers : 2 ≤ s.main.joined → ∀ i < c.workerCount, (s.workers i).pc.over = true
  writer : 3 ≤ s.main.joined → s.writer.over = true
  progress : 4 ≤ s.main.joined → s.progress.over = true
  canceller : 5 ≤ s.main.joined → s.canceller.over = true ∧ s.registered = false
  settled : s.main.settles = true → s.firstError = none
  failing : ∀ f, s.main = .failing f → s.firstError = none ∨ s.firstError = some f.error

theorem standing_start {v : Vault} {e : Bool} : Standing c (State.start c v e) := by
  have hj : (State.start c v e).main.joined = 0 := rfl
  refine ⟨fun _ => ⟨rfl, rfl, rfl⟩, ?_, ?_, ?_, ?_, ?_, ?_, ?_, ?_, ?_⟩
  · intro n h
    cases h
  · intro h
    cases h
  · omega
  · omega
  · omega
  · omega
  · omega
  · intro h
    cases h
  · intro f h
    cases h

/-- What the other threads may change without disturbing the calling thread. -/
structure Undisturbed (c : Config) (s t : State) : Prop where
  main : t.main = s.main
  registered : t.registered = s.registered
  failed : s.failed → t.failed
  scanner : s.scanner.over = true → t.scanner = s.scanner
  created : s.scanner ≠ .waiting → t.scanner ≠ .waiting
  workers : ∀ i, (s.workers i).pc.over = true → t.workers i = s.workers i
  workersCreated : ∀ i, (s.workers i).pc ≠ .waiting → (t.workers i).pc ≠ .waiting
  writer : s.writer.over = true → t.writer = s.writer
  writerCreated : s.writer ≠ .waiting → t.writer ≠ .waiting
  progress : s.progress.over = true → t.progress = s.progress
  canceller : s.registered = false → s.canceller.over = true → t.canceller = s.canceller
  errors : s.firstError = t.firstError ∨ s.scanner.over = false ∨
    (∃ i < c.workerCount, (s.workers i).pc.over = false) ∨ s.writer.over = false ∨
    s.progress.over = false ∨ s.canceller.over = false

theorem Undisturbed.started {n : Nat} (h : Undisturbed c s t) (hs : Started c n s.writer s.workers) :
    Started c n t.writer t.workers :=
  ⟨fun hn => h.writerCreated (hs.writer hn), fun i hi hn => h.workersCreated i (hs.workers i hi hn)⟩

/-- No other thread is at work. -/
structure Alone (c : Config) (s : State) : Prop where
  scanner : s.scanner.over = true
  workers : ∀ i < c.workerCount, (s.workers i).pc.over = true
  writer : s.writer.over = true
  progress : s.progress.over = true
  canceller : s.canceller.over = true

theorem Standing.alone (h : Standing c s) (hj : 5 ≤ s.main.joined) : Alone c s :=
  ⟨h.scanner (by omega), h.workers (by omega), h.writer (by omega), h.progress (by omega),
    (h.canceller hj).1⟩

/-- In front of the pipeline the calling thread is alone. -/
theorem Standing.alone_early (h : Standing c s) (hy : Young s) (he : s.main.early = true) :
    Alone c s := by
  have hu : Uncreated 0 s := hy 0 (by cases hm : s.main <;> rw [hm] at he <;> first | rfl | cases he)
  refine ⟨by rw [hu.scanner]; rfl, fun i _ => by rw [hu.workers i (by omega)]; rfl, ?_, ?_, ?_⟩
  · rw [hu.writer (by omega)]
    rfl
  · rw [hu.progress rfl]
    rfl
  · rw [(h.early he).2.1]
    rfl

theorem settles_joined {pc : MainPc} (h : pc.settles = true) : 5 ≤ pc.joined := by
  cases pc <;> first | exact Nat.le_refl 5 | cases h

/-- Where no other thread is at work, nobody sets the first error. -/
theorem Undisturbed.firstError (h : Undisturbed c s t) (ha : Alone c s) :
    t.firstError = s.firstError := by
  rcases h.errors with he | he | ⟨i, hi, he⟩ | he | he | he
  · exact he.symm
  · rw [ha.scanner] at he
    cases he
  · rw [ha.workers i hi] at he
    cases he
  · rw [ha.writer] at he
    cases he
  · rw [ha.progress] at he
    cases he
  · rw [ha.canceller] at he
    cases he

theorem Undisturbed.standing (h : Undisturbed c s t) (hy : Young s) (hs : Standing c s) :
    Standing c t := by
  refine ⟨?_, ?_, ?_, ?_, ?_, ?_, ?_, ?_, ?_, ?_⟩
  · intro he
    rw [h.main] at he
    obtain ⟨hr, hc, hnone⟩ := hs.early he
    refine ⟨h.registered.trans hr, ?_, ?_⟩
    · rw [h.canceller hr (by rw [hc]; rfl), hc]
    · rw [h.firstError (hs.alone_early hy he), hnone]
  · intro n hn
    rw [h.main] at hn
    exact h.started (hs.started n hn)
  · intro hw
    rw [h.main] at hw
    rcases hs.complete hw with hf | ⟨hstarted, hscanner⟩
    · exact Or.inl (h.failed hf)
    · exact Or.inr ⟨h.started hstarted, h.created hscanner⟩
  · intro hj
    rw [h.main] at hj
    rw [h.scanner (hs.scanner hj)]
    exact hs.scanner hj
  · intro hj i hi
    rw [h.main] at hj
    rw [h.workers i (hs.workers hj i hi)]
    exact hs.workers hj i hi
  · intro hj
    rw [h.main] at hj
    rw [h.writer (hs.writer hj)]
    exact hs.writer hj
  · intro hj
    rw [h.main] at hj
    rw [h.progress (hs.progress hj)]
    exact hs.progress hj
  · intro hj
    rw [h.main] at hj
    obtain ⟨hc, hr⟩ := hs.canceller hj
    rw [h.canceller hr hc]
    exact ⟨hc, h.registered.trans hr⟩
  · intro hm
    rw [h.main] at hm
    rw [h.firstError (hs.alone (settles_joined hm))]
    exact hs.settled hm
  · intro f hm
    rw [h.main] at hm
    rw [h.firstError (hs.alone (by rw [hm]; exact Nat.le_refl 5))]
    exact hs.failing f hm

theorem ScannerMove.undisturbed (hm : ScannerMove c s t) (hf : s.failed → t.failed) :
    Undisturbed c s t := by
  have hr := hm.running
  have hframe := hm.frame
  refine ⟨hframe.main, hframe.registered, hf, ?_, fun _ => hr.2, fun i _ => congrFun hframe.workers i,
    fun i hi => by rw [hframe.workers]; exact hi, fun _ => hframe.writer,
    fun hw => by rw [hframe.writer]; exact hw, fun _ => hframe.progress, fun _ _ => hframe.canceller,
    Or.inr (Or.inl hr.1)⟩
  intro ho
  rw [hr.1] at ho
  cases ho

theorem WorkerMove.undisturbed {i : Nat} (hi : i < c.workerCount) (hm : WorkerMove c x s i t)
    (hf : s.failed → t.failed) : Undisturbed c s t := by
  have hr := hm.running
  have hframe := hm.frame
  refine ⟨hframe.main, hframe.registered, hf, fun _ => hframe.scanner,
    fun hw => by rw [hframe.scanner]; exact hw, ?_, ?_, fun _ => hframe.writer,
    fun hw => by rw [hframe.writer]; exact hw, fun _ => hframe.progress, fun _ _ => hframe.canceller,
    Or.inr (Or.inr (Or.inl ⟨i, hi, hr.1⟩))⟩
  · intro j hj
    by_cases hji : j = i
    · subst hji
      rw [hr.1] at hj
      cases hj
    · exact hframe.others j hji
  · intro j hj
    by_cases hji : j = i
    · subst hji
      exact hr.2
    · rw [hframe.others j hji]
      exact hj

theorem WriterMove.undisturbed (hm : WriterMove c s t) (hf : s.failed → t.failed) :
    Undisturbed c s t := by
  have hr := hm.running
  have hframe := hm.frame
  refine ⟨hframe.main, hframe.registered, hf, fun _ => hframe.scanner,
    fun hw => by rw [hframe.scanner]; exact hw, fun i _ => congrFun hframe.workers i,
    fun i hi => by rw [hframe.workers]; exact hi, ?_, fun _ => hr.2, fun _ => hframe.progress,
    fun _ _ => hframe.canceller, Or.inr (Or.inr (Or.inr (Or.inl hr.1)))⟩
  intro ho
  rw [hr.1] at ho
  cases ho

theorem OtherMove.undisturbed (hm : OtherMove c s t) (hf : s.failed → t.failed) :
    Undisturbed c s t := by
  have hframe := hm.frame
  have hprogress : s.progress.over = true → t.progress = s.progress := by
    intro ho
    cases hm with
    | progressFails e hp => simp [hp, ProgressPc.over] at ho
    | progressEnds hp => simp [hp, ProgressPc.over] at ho
    | progressShuts f stage hp => simp [hp, ProgressPc.over] at ho
    | cancellerShuts f stage hp => exact shut_untouched.progress
    | requests he hr => rfl
    | notes he hr => rfl
  have hcanceller : s.registered = false → s.canceller.over = true → t.canceller = s.canceller := by
    intro hreg ho
    cases hm with
    | progressFails e hp => rfl
    | progressEnds hp => rfl
    | progressShuts f stage hp => exact shut_untouched.canceller
    | cancellerShuts f stage hp => simp [hp, CancellerPc.over] at ho
    | requests he hr =>
      rw [hreg] at hr
      cases hr
    | notes he hr => rfl
  have herrors : s.firstError = t.firstError ∨ s.progress.over = false ∨ s.canceller.over = false := by
    cases hm with
    | progressFails e hp => exact Or.inl rfl
    | progressEnds hp => exact Or.inl rfl
    | progressShuts f stage hp => exact Or.inr (Or.inl (by rw [hp]; rfl))
    | cancellerShuts f stage hp => exact Or.inr (Or.inr (by rw [hp]; rfl))
    | requests he hr => exact Or.inl rfl
    | notes he hr => exact Or.inl rfl
  refine ⟨hframe.main, hframe.registered, hf, fun _ => hframe.scanner,
    fun hw => by rw [hframe.scanner]; exact hw, fun i _ => congrFun hframe.workers i,
    fun i hi => by rw [hframe.workers]; exact hi, fun _ => hframe.writer,
    fun hw => by rw [hframe.writer]; exact hw, hprogress, hcanceller, ?_⟩
  rcases herrors with he | he | he
  · exact Or.inl he
  · exact Or.inr (Or.inr (Or.inr (Or.inr (Or.inl he))))
  · exact Or.inr (Or.inr (Or.inr (Or.inr (Or.inr he))))

/-- A first error stays. -/
theorem Move.failed (hm : Move c x s t) (h : s.failed) : t.failed := by
  cases hm with
  | scanner hm =>
    cases hm with
    | shuts f stage hp => exact shut_failed h
    | _ => exact h
  | worker i hi hm =>
    cases hm with
    | shuts f stage hp => exact shut_failed h
    | _ => exact h
  | writer hm =>
    cases hm with
    | shuts f stage hp => exact shut_failed h
    | _ => exact h
  | other hm =>
    cases hm with
    | progressShuts f stage hp => exact shut_failed h
    | cancellerShuts f stage hp => exact shut_failed h
    | _ => exact h
  | main hm =>
    cases hm with
    | cancels f stage hp => exact shut_failed h
    | shuts f stage hp => exact shut_failed h
    | creates created hp =>
      have hc := create_creates (c := c) (s := s) created
      generalize s.create c created = u at hc
      cases hc <;> exact h
    | _ => exact h

/-- A place of the calling thread with no join behind it and no thread created. -/
def MainPc.plain (pc : MainPc) : Prop :=
  pc.joined = 0 ∧ pc.waits = false ∧ pc.settles = false ∧ (∀ n, pc ≠ .creating n) ∧
    ∀ f, pc ≠ .failing f

theorem Standing.plainTo (h : Standing c s) {pc : MainPc} (hp : pc.plain)
    (he : pc.early = true → s.main.early = true) : Standing c { s with main := pc } := by
  obtain ⟨hj, hw, hs, hn, hf⟩ := hp
  refine ⟨fun hpc => h.early (he hpc), fun n hpc => absurd hpc (hn n), ?_, ?_, ?_, ?_, ?_, ?_, ?_,
    fun f hpc => absurd hpc (hf f)⟩
  · intro hpc
    rw [hw] at hpc
    cases hpc
  · exact fun hle => absurd hle (by rw [hj]; omega)
  · exact fun hle => absurd hle (by rw [hj]; omega)
  · exact fun hle => absurd hle (by rw [hj]; omega)
  · exact fun hle => absurd hle (by rw [hj]; omega)
  · exact fun hle => absurd hle (by rw [hj]; omega)
  · intro hpc
    rw [hs] at hpc
    cases hpc

/-- The calling thread takes one more join. -/
theorem Standing.joinTo (h : Standing c s) {pc : MainPc} (hold : s.main.waits = true)
    (hearly : pc.early = false) (hn : ∀ n, pc ≠ .creating n) (hf : ∀ f, pc ≠ .failing f)
    (hs : pc.settles = false)
    (hscanner : 1 ≤ pc.joined → s.scanner.over = true)
    (hworkers : 2 ≤ pc.joined → ∀ i < c.workerCount, (s.workers i).pc.over = true)
    (hwriter : 3 ≤ pc.joined → s.writer.over = true)
    (hprogress : 4 ≤ pc.joined → s.progress.over = true)
    (hcanceller : 5 ≤ pc.joined → s.canceller.over = true ∧ s.registered = false) :
    Standing c { s with main := pc } := by
  refine ⟨?_, fun n hpc => absurd hpc (hn n), fun _ => h.complete hold, hscanner, hworkers, hwriter,
    hprogress, hcanceller, ?_, fun f hpc => absurd hpc (hf f)⟩
  · intro hpc
    rw [hearly] at hpc
    cases hpc
  · intro hpc
    rw [hs] at hpc
    cases hpc

/-- The calling thread goes on behind the last join. -/
theorem Standing.settleTo (h : Standing c s) {pc : MainPc} (hold : 5 ≤ s.main.joined)
    (hwaits : s.main.waits = true) (hnone : s.firstError = none) (hs : pc.settles = true) :
    Standing c { s with main := pc } := by
  have ha := h.alone hold
  refine ⟨?_, ?_, fun _ => h.complete hwaits, fun _ => ha.scanner, fun _ => ha.workers,
    fun _ => ha.writer, fun _ => ha.progress, fun _ => h.canceller hold, fun _ => hnone, ?_⟩
  · intro hpc
    change pc.early = true at hpc
    cases pc <;> simp [MainPc.early, MainPc.settles] at hpc hs
  · rintro n rfl
    cases hs
  · rintro f rfl
    cases hs

/-- The calling thread fails, with no other thread at work. -/
theorem Alone.failTo (h : Alone c s) (hr : s.registered = false)
    (herr : s.firstError = none ∨ s.firstError = some f.error) :
    Standing c { s with main := .failing f } := by
  refine ⟨?_, ?_, ?_, fun _ => h.scanner, fun _ => h.workers, fun _ => h.writer,
    fun _ => h.progress, fun _ => ⟨h.canceller, hr⟩, ?_, ?_⟩
  · intro hpc
    cases hpc
  · intro n hpc
    cases hpc
  · intro hpc
    cases hpc
  · intro hpc
    cases hpc
  · intro g hpc
    cases hpc
    exact herr

/-- The threads are created or will never be. -/
theorem Standing.waitTo (h : s.failed ∨ Started c (c.workerCount + 2) s.writer s.workers ∧
      s.scanner ≠ .waiting) : Standing c { s with main := .joiningScanner } := by
  refine ⟨?_, ?_, fun _ => h, ?_, ?_, ?_, ?_, ?_, ?_, ?_⟩
  · intro hpc
    cases hpc
  · intro n hpc
    cases hpc
  · exact fun hle => absurd hle (by simp [MainPc.joined])
  · exact fun hle => absurd hle (by simp [MainPc.joined])
  · exact fun hle => absurd hle (by simp [MainPc.joined])
  · exact fun hle => absurd hle (by simp [MainPc.joined])
  · exact fun hle => absurd hle (by simp [MainPc.joined])
  · intro hpc
    cases hpc
  · intro f hpc
    cases hpc

theorem Standing.createTo {n : Nat} (h : Started c n s.writer s.workers) :
    Standing c { s with main := .creating n } := by
  refine ⟨?_, ?_, ?_, ?_, ?_, ?_, ?_, ?_, ?_, ?_⟩
  · intro hpc
    cases hpc
  · intro m hpc
    cases hpc
    exact h
  · intro hpc
    cases hpc
  · exact fun hle => absurd hle (by simp [MainPc.joined])
  · exact fun hle => absurd hle (by simp [MainPc.joined])
  · exact fun hle => absurd hle (by simp [MainPc.joined])
  · exact fun hle => absurd hle (by simp [MainPc.joined])
  · exact fun hle => absurd hle (by simp [MainPc.joined])
  · intro hpc
    cases hpc
  · intro f hpc
    cases hpc

theorem Advances.standing {pc : MainPc} (ha : Advances c s s.main pc) (hy : Young s) (hd : Sound c s)
    (h : Standing c s) : Standing c { s with main := pc } := by
  generalize hm : s.main = m at ha
  have hjoined : s.main.joined = m.joined := by rw [hm]
  have hwaits : s.main.waits = m.waits := by rw [hm]
  cases ha with
  | checks he => exact h.plainTo ⟨rfl, rfl, rfl, nofun, nofun⟩ (fun _ => by rw [hm]; rfl)
  | announces => exact h.plainTo ⟨rfl, rfl, rfl, nofun, nofun⟩ (fun _ => by rw [hm]; rfl)
  | checksAgain he => exact h.plainTo ⟨rfl, rfl, rfl, nofun, nofun⟩ (fun _ => by rw [hm]; rfl)
  | cancels he => exact h.plainTo ⟨rfl, rfl, rfl, nofun, nofun⟩ (fun he => by cases he)
  | fails created e => exact h.plainTo ⟨rfl, rfl, rfl, nofun, nofun⟩ (fun he => by cases he)
  | skips hs => exact Standing.waitTo (Or.inl (hd.stop hs))
  | decides hs => exact Standing.createTo ⟨fun hlt => by omega, fun i _ hlt => by omega⟩
  | joinsScanner ho =>
    exact h.joinTo hwaits rfl nofun nofun rfl (fun _ => ho) (fun hle => by simp [MainPc.joined] at hle)
      (fun hle => by simp [MainPc.joined] at hle) (fun hle => by simp [MainPc.joined] at hle)
      (fun hle => by simp [MainPc.joined] at hle)
  | joinsWorkers ho =>
    exact h.joinTo hwaits rfl nofun nofun rfl (fun _ => h.scanner (by rw [hjoined]; decide))
      (fun _ => ho) (fun hle => by simp [MainPc.joined] at hle)
      (fun hle => by simp [MainPc.joined] at hle) (fun hle => by simp [MainPc.joined] at hle)
  | joinsProgress ho =>
    exact h.joinTo hwaits rfl nofun nofun rfl (fun _ => h.scanner (by rw [hjoined]; decide))
      (fun _ => h.workers (by rw [hjoined]; decide)) (fun _ => h.writer (by rw [hjoined]; decide))
      (fun _ => ho) (fun hle => by simp [MainPc.joined] at hle)
  | rethrows e he =>
    have hlast : 5 ≤ s.main.joined := by rw [hjoined]; decide
    exact (h.alone hlast).failTo (h.canceller hlast).2 (Or.inr he)
  | concludes he => exact h.settleTo (by rw [hjoined]; decide) hwaits he rfl
  | finalizes =>
    exact h.settleTo (by rw [hjoined]; decide) hwaits (h.settled (by rw [hm]; rfl)) rfl
  | checksLast he =>
    exact h.settleTo (by rw [hjoined]; decide) hwaits (h.settled (by rw [hm]; rfl)) rfl
  | throws _ f ht =>
    by_cases hearly : s.main.early = true
    · exact (h.alone_early hy hearly).failTo (h.early hearly).1 (Or.inl (h.early hearly).2.2)
    · have hsettles : s.main.settles = true := by
        rw [hm] at hearly ⊢
        cases m <;> first | rfl | exact absurd rfl hearly | cases ht
      have hlast := settles_joined hsettles
      exact (h.alone hlast).failTo (h.canceller hlast).2 (Or.inl (h.settled hsettles))

/-- Changes that concern neither the places of the threads nor the errors. -/
theorem Standing.adjust (h : Standing c s) {vault : Vault} {progressFinished : Bool}
    {totals : SnapshotTotals} : Standing c { s with vault, progressFinished, totals } :=
  ⟨h.early, h.started, h.complete, h.scanner, h.workers, h.writer, h.progress, h.canceller, h.settled,
    h.failing⟩

theorem Creates.standing {n : Nat} (hc : Creates c s n t) (h : Started c n s.writer s.workers) :
    Standing c t := by
  cases hc with
  | progress =>
    refine Standing.createTo (n := 1) (s := { s with progress := .running }) ⟨?_, ?_⟩
    · exact fun hlt => absurd hlt (by omega)
    · exact fun i _ hlt => absurd hlt (by omega)
  | writer =>
    refine Standing.createTo (n := 2) (s := { s with writer := .starting }) ⟨fun _ => by simp, ?_⟩
    exact fun i _ hlt => absurd hlt (by omega)
  | worker i hi =>
    refine Standing.createTo (s := s.moveWorker i .starting) ⟨fun _ => h.writer (by omega), ?_⟩
    intro j hj hlt
    by_cases hji : j = i
    · subst hji
      rw [State.moveWorker, setWorker_same]
      simp [Worker.goto]
    · rw [State.moveWorker, setWorker_other hji]
      exact h.workers j hj (by omega)
  | scanner n hn =>
    refine Standing.waitTo (s := { s with scanner := .starting })
      (Or.inr ⟨⟨fun _ => ?_, ?_⟩, by simp⟩)
    · exact h.writer (by omega)
    · exact fun i hi _ => h.workers i hi (by omega)

theorem MainMove.standing (hm : MainMove c s t) (hy : Young s) (hd : Sound c s) (h : Standing c s) :
    Standing c t := by
  cases hm with
  | advances pc ha => exact ha.standing hy hd h
  | registers hp he =>
    have h' : Standing c { s with main := .deciding } :=
      h.plainTo ⟨rfl, rfl, rfl, nofun, nofun⟩ (fun he => by cases he)
    exact ⟨fun he => (by cases he), h'.started, h'.complete, h'.scanner, h'.workers, h'.writer,
      h'.progress, fun hle => (by simp [MainPc.joined] at hle), h'.settled, h'.failing⟩
  | cancels f stage hp =>
    have hu : Untouched s (s.shut f stage) := shut_untouched
    rcases afterStage_cases MainPc.cancelling .deciding f stage with he | ⟨stage', he⟩
    all_goals
      rw [he]
      refine ⟨fun hpc => (by cases hpc), fun n hpc => (by cases hpc), fun hpc => (by cases hpc),
        fun hle => (by simp [MainPc.joined] at hle), fun hle => (by simp [MainPc.joined] at hle),
        fun hle => (by simp [MainPc.joined] at hle), fun hle => (by simp [MainPc.joined] at hle),
        fun hle => (by simp [MainPc.joined] at hle), fun hpc => (by cases hpc),
        fun g hpc => (by cases hpc)⟩
  | creates created hp => exact (create_creates created).standing (h.started created hp)
  | shuts f stage hp =>
    have hr := hd.mainReports f stage (Or.inl hp)
    rcases afterStage_cases MainPc.shutting .joiningScanner f stage with he | ⟨stage', he⟩
    · rw [he]
      exact Standing.waitTo (Or.inl hr.after)
    · rw [he]
      refine ⟨fun hpc => (by cases hpc), fun n hpc => (by cases hpc), fun hpc => (by cases hpc),
        fun hle => (by simp [MainPc.joined] at hle), fun hle => (by simp [MainPc.joined] at hle),
        fun hle => (by simp [MainPc.joined] at hle), fun hle => (by simp [MainPc.joined] at hle),
        fun hle => (by simp [MainPc.joined] at hle), fun hpc => (by cases hpc),
        fun g hpc => (by cases hpc)⟩
  | joinsWriter hp ho =>
    have hj : s.main.joined = 2 := by rw [hp]; rfl
    have h' : Standing c { s with main := .joiningProgress } :=
      h.joinTo (by rw [hp]; rfl) rfl nofun nofun rfl (fun _ => h.scanner (by omega))
        (fun _ => h.workers (by omega)) (fun _ => ho) (fun hle => by simp [MainPc.joined] at hle)
        (fun hle => by simp [MainPc.joined] at hle)
    exact h'.adjust
  | unregisters hp ho =>
    have hj : s.main.joined = 4 := by rw [hp]; rfl
    exact ⟨fun hpc => (by cases hpc), fun n hpc => (by cases hpc),
      fun _ => h.complete (by rw [hp]; rfl), fun _ => h.scanner (by omega),
      fun _ => h.workers (by omega), fun _ => h.writer (by omega), fun _ => h.progress (by omega),
      fun _ => ⟨ho, rfl⟩, fun hpc => (by cases hpc), fun g hpc => (by cases hpc)⟩
  | times now hp =>
    have h' : Standing c { s with main := .finalizing } :=
      h.settleTo (by rw [hp]; decide) (by rw [hp]; rfl) (h.settled (by rw [hp]; rfl)) rfl
    exact h'.adjust
  | publishes now db hp hdb =>
    have h' : Standing c { s with main := .published } :=
      h.settleTo (by rw [hp]; decide) (by rw [hp]; rfl) (h.settled (by rw [hp]; rfl)) rfl
    exact h'.adjust

/-- The three invariants that every schedule keeps. -/
structure Orderly (c : Config) (s : State) : Prop where
  young : Young s
  sound : Sound c s
  standing : Standing c s

theorem orderly_start {v : Vault} {e : Bool} : Orderly c (State.start c v e) :=
  ⟨young_start, sound_start, standing_start⟩

theorem Move.orderly (hm : Move c x s t) (h : Orderly c s) : Orderly c t := by
  have hf := hm.failed
  refine ⟨hm.young h.young, hm.errors h.young h.sound, ?_⟩
  cases hm with
  | scanner hm => exact (hm.undisturbed hf).standing h.young h.standing
  | worker i hi hm => exact (hm.undisturbed hi hf).standing h.young h.standing
  | writer hm => exact (hm.undisturbed hf).standing h.young h.standing
  | other hm => exact (hm.undisturbed hf).standing h.young h.standing
  | main hm => exact hm.standing h.young h.sound h.standing

theorem run_orderly {v : Vault} {e : Bool} {ls : List Label}
    (h : run c x (State.start c v e) ls = some s) : Orderly c s :=
  run_invariant (P := Orderly c) (fun _ _ hs hm => hm.orderly hs) orderly_start h

end LocalVault.Snapshot
