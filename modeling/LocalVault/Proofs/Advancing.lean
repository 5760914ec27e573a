import LocalVault.Proofs.Finishing
import LocalVault.Proofs.Stranding

namespace LocalVault.Snapshot
open Library Repository

variable {c : Config} {x : Externals} {s t : State} {i : Nat} {u : Parking} {l : Label}
  {thread : Thread}

/-! A pipeline that is not through has a thread that goes on. -/

/-- What the outside answers without an exception. -/
def Act.plain : Act → Bool
  | .raises _ | .publishesThenRaises _ => false
  | _ => true

theorem scanner_advances (hover : s.scanner.over = false) (hwait : s.mustWait c .scanner = false) :
    ∃ a, a.plain = true ∧ (stepScanner c s a).isSome = true := by
  cases hp : s.scanner with
  | waiting => simp [hp, ScannerPc.over] at hover
  | done => simp [hp, ScannerPc.over] at hover
  | starting => exact ⟨.next, rfl, by simp [stepScanner, hp]⟩
  | emitting rest =>
    cases rest with
    | cons job rest => exact ⟨.next, rfl, by simp [stepScanner, hp]⟩
    | nil =>
      cases he : c.scanError with
      | none => exact ⟨.next, rfl, by simp [stepScanner, hp, he]⟩
      | some e => exact ⟨.next, rfl, by simp [stepScanner, hp, he]⟩
  | pushing job rest =>
    simp only [State.mustWait, hp] at hwait
    cases hq : s.jobs.push s.stopRequested job 0 with
    | accepted jobs => exact ⟨.next, rfl, by simp [stepScanner, hp, hq]⟩
    | refused => exact ⟨.next, rfl, by simp [stepScanner, hp, hq]⟩
    | oversized => exact ⟨.next, rfl, by simp [stepScanner, hp, hq]⟩
    | waits => simp [hq, Pushed.isWaits] at hwait
  | refused job => exact ⟨.next, rfl, by simp [stepScanner, hp]⟩
  | closing => exact ⟨.next, rfl, by simp [stepScanner, hp]⟩
  | shutting f stage => exact ⟨.next, rfl, by simp [stepScanner, hp]⟩

theorem worker_advances (hover : (s.workers i).pc.over = false)
    (hwait : s.mustWait c (.worker i) = false) :
    ∃ a, a.plain = true ∧ (stepWorker c x s i a).isSome = true := by
  cases hp : (s.workers i).pc with
  | waiting => simp [hp, WorkerPc.over] at hover
  | done => simp [hp, WorkerPc.over] at hover
  | popping =>
    simp only [State.mustWait, hp] at hwait
    cases hq : s.jobs.pop s.stopRequested with
    | item job jobs => exact ⟨.next, rfl, by simp [stepWorker, hp, hq]⟩
    | ended => exact ⟨.next, rfl, by simp [stepWorker, hp, hq]⟩
    | waits => simp [hq, Popped.isWaits] at hwait
  | measuring task =>
    refine ⟨.observes ⟨0, 0, 0, 0, 0, 0⟩, rfl, ?_⟩
    cases hs : s.stopRequested with
    | true => simp [stepWorker, hp, hs]
    | false => simp [stepWorker, hp, hs]
  | opening task before =>
    refine ⟨.next, rfl, ?_⟩
    cases hs : s.stopRequested with
    | true => simp [stepWorker, hp, hs]
    | false => simp [stepWorker, hp, hs]
  | reading r =>
    refine ⟨.reads [], rfl, ?_⟩
    cases hs : s.stopRequested with
    | true => simp [stepWorker, hp, hs]
    | false => simp [stepWorker, hp, hs]
  | storing r raw =>
    refine ⟨.next, rfl, ?_⟩
    cases hs : s.stopRequested with
    | true => simp [stepWorker, hp, hs]
    | false =>
      cases hf : findStored x c.chunkSize (s.workers i).known s.vault.objects raw with
      | error e => simp [stepWorker, hp, hs, hf]
      | ok found =>
        cases found with
        | some object => simp [stepWorker, hp, hs, hf]
        | none => simp [stepWorker, hp, hs, hf]
  | compressing r raw =>
    refine ⟨.next, rfl, ?_⟩
    cases hs : s.stopRequested with
    | true => simp [stepWorker, hp, hs]
    | false =>
      cases hf : compressChunk x c.chunkSize raw with
      | error e => simp [stepWorker, hp, hs, hf]
      | ok compressed => simp [stepWorker, hp, hs, hf]
  | publishing r raw compressed =>
    refine ⟨.next, rfl, ?_⟩
    cases hf : storeUnderStripe x c.chunkSize (s.workers i).known s.vault.objects raw compressed with
    | error e => simp [stepWorker, hp, hf]
    | ok stored =>
      obtain ⟨object, known, objects⟩ := stored
      simp [stepWorker, hp, hf]
  | confirming r =>
    exact ⟨.observes ⟨0, 0, 0, 0, 0, 0⟩, rfl, by simp [stepWorker, hp]⟩
  | pushing p =>
    simp only [State.mustWait, hp] at hwait
    cases hq : s.processed.push s.stopRequested p (processedEntrySize c p) with
    | accepted processed => exact ⟨.next, rfl, by simp [stepWorker, hp, hq]⟩
    | refused => exact ⟨.next, rfl, by simp [stepWorker, hp, hq]⟩
    | oversized => exact ⟨.next, rfl, by simp [stepWorker, hp, hq]⟩
    | waits => simp [hq, Pushed.isWaits] at hwait
  | starting => exact ⟨.next, rfl, by simp [stepWorker, hp]⟩
  | beginning task => exact ⟨.next, rfl, by simp [stepWorker, hp]⟩
  | finished p => exact ⟨.next, rfl, by simp [stepWorker, hp]⟩
  | refused p large => exact ⟨.next, rfl, by simp [stepWorker, hp]⟩
  | shutting f stage => exact ⟨.next, rfl, by simp [stepWorker, hp]⟩
  | leaving => exact ⟨.next, rfl, by simp [stepWorker, hp]⟩
  | closing => exact ⟨.next, rfl, by simp [stepWorker, hp]⟩

/-- The places of the writer with an open batch. -/
def WriterPc.works : WriterPc → Bool
  | .popping | .inserting _ | .referring _ _ _ | .committing _ | .ending => true
  | _ => false

theorem WriterMove.equipped (hm : WriterMove c s t)
    (h : s.writer.works = true → s.batch.isSome = true) :
    t.writer.works = true → t.batch.isSome = true := by
  cases hm with
  | pops p processed hp hq => exact fun _ => h (by rw [hp]; rfl)
  | ended hp hq => exact fun _ => h (by rw [hp]; rfl)
  | concludes hp hs => exact fun _ => h (by rw [hp]; rfl)
  | skips last b hp hb hr =>
    cases last with
    | false => exact fun _ => rfl
    | true => exact fun hw => by cases hw
  | commits last b hp hb hr hs =>
    cases last with
    | false => exact fun _ => rfl
    | true => exact fun hw => by cases hw
  | shuts f stage hp =>
    intro hw
    cases stage <;> cases hw
  | fails f totals hf hp => exact fun hw => by cases hw
  | breaks b e hb hr last hp => exact fun hw => by cases hw
  | abandons hp hs => exact fun hw => by cases hw
  | _ => exact fun _ => rfl

/-- The writer has a batch wherever it works on one. -/
def Equipped (s : State) : Prop := s.writer.works = true → s.batch.isSome = true

theorem Move.equipped (hm : Move c x s t) (hy : Young s) (h : Equipped s) : Equipped t := by
  have hsame : t.batch = s.batch → (t.writer = s.writer ∨ t.writer = .starting) → Equipped t := by
    rintro hbatch (he | he) hw
    · rw [hbatch]
      exact h (he ▸ hw)
    · rw [he] at hw
      cases hw
  cases hm with
  | scanner hm => exact hsame hm.frame.batch (.inl hm.frame.writer)
  | worker i hi hm => exact hsame hm.frame.batch (.inl hm.frame.writer)
  | writer hm => exact hm.equipped h
  | other hm => exact hsame hm.frame.batch (.inl hm.frame.writer)
  | main hm =>
    cases hm with
    | creates created hp =>
      have hcreates := create_creates (c := c) (s := s) created
      generalize s.create c created = t at hcreates hsame ⊢
      cases hcreates with
      | writer => exact hsame rfl (.inr rfl)
      | _ => exact hsame rfl (.inl rfl)
    | cancels f stage hp => exact hsame shut_untouched.batch (.inl shut_untouched.writer)
    | shuts f stage hp => exact hsame shut_untouched.batch (.inl shut_untouched.writer)
    | _ => exact hsame rfl (.inl rfl)

theorem writer_advances (ho : Equipped s) (hover : s.writer.over = false)
    (hwait : s.mustWait c .writer = false) :
    ∃ a, a.plain = true ∧ (stepWriter c s a).isSome = true := by
  have hbatch : s.writer.works = true → ∃ b, s.batch = some b := fun hw =>
    Option.isSome_iff_exists.mp (ho hw)
  cases hp : s.writer with
  | waiting => simp [hp, WriterPc.over] at hover
  | done => simp [hp, WriterPc.over] at hover
  | starting => exact ⟨.next, rfl, by simp [stepWriter, hp]⟩
  | shutting f stage => exact ⟨.next, rfl, by simp [stepWriter, hp]⟩
  | popping =>
    obtain ⟨b, hb⟩ := hbatch (by rw [hp]; rfl)
    simp only [State.mustWait, hp] at hwait
    refine ⟨.next, rfl, ?_⟩
    cases hq : s.processed.pop s.stopRequested with
    | item p processed => simp [stepWriter, hp, hb, hq]
    | ended => simp [stepWriter, hp, hb, hq]
    | waits => simp [hq, Popped.isWaits] at hwait
  | inserting p =>
    obtain ⟨b, hb⟩ := hbatch (by rw [hp]; rfl)
    refine ⟨.next, rfl, ?_⟩
    cases hv : p.value with
    | warning w =>
      rcases hdb : insertWarning c.snapshotId w b.db with ⟨_ | _, db⟩ <;>
        simp [stepWriter, hp, hb, hv, hdb]
    | entry e =>
      cases hs : s.stopRequested with
      | true => simp [stepWriter, hp, hb, hv, hs]
      | false =>
        rcases hdb : insertEntry c.snapshotId e b.db with ⟨_ | _, db⟩ <;>
          simp [stepWriter, hp, hb, hv, hs, hdb]
  | referring p id rest =>
    obtain ⟨b, hb⟩ := hbatch (by rw [hp]; rfl)
    cases rest with
    | nil =>
      refine ⟨.next, rfl, ?_⟩
      rcases hdb : setRegularFileHash id p.fileHashHex b.db with ⟨_ | _, db⟩ <;>
        simp [stepWriter, hp, hb, hdb]
    | cons ref rest =>
      refine ⟨.ticks 0, rfl, ?_⟩
      cases hs : s.stopRequested with
      | true => simp [stepWriter, hp, hb, hs]
      | false =>
        rcases hdb : recordChunk c s.vault.objects id ref 0 b.db with ⟨_ | _, db⟩
        · simp [stepWriter, hp, hb, hs, hdb]
        · cases ht : countChunk s.totals ref <;> simp [stepWriter, hp, hb, hs, hdb, ht]
  | committing last =>
    obtain ⟨b, hb⟩ := hbatch (by rw [hp]; rfl)
    refine ⟨.next, rfl, ?_⟩
    cases hr : b.hasRecords <;> cases hs : s.stopRequested <;> simp [stepWriter, hp, hb, hr, hs]
  | ending =>
    obtain ⟨b, hb⟩ := hbatch (by rw [hp]; rfl)
    refine ⟨.next, rfl, ?_⟩
    cases hs : s.stopRequested <;> simp [stepWriter, hp, hb, hs]

theorem main_advances (h : s.main.launching = true) : (stepMain c s .next).isSome = true := by
  cases hp : s.main with
  | registering => cases he : s.externalStop <;> simp [stepMain, hp, he]
  | deciding => cases hs : s.stopRequested <;> simp [stepMain, hp, hs]
  | checking | announcing | checkingAgain | cancelling _ _ | creating _ | shutting _ _ =>
    simp [stepMain, hp]
  | _ => simp [hp, MainPc.launching] at h

/-- The calling thread tells the progress thread before it joins it. -/
def Finishing (s : State) : Prop := s.main = .joiningProgress → s.progressFinished = true

theorem Move.finishing (hm : Move c x s t) (h : Finishing s) : Finishing t := by
  have hsame : t.main = s.main → Finishing t := fun he hp => hm.finished (h (he.symm.trans hp))
  cases hm with
  | scanner hm => exact hsame hm.frame.main
  | worker i hi hm => exact hsame hm.frame.main
  | writer hm => exact hsame hm.frame.main
  | other hm => exact hsame hm.frame.main
  | main hm =>
    cases hm with
    | advances pc ha =>
      intro hp
      dsimp only at hp
      rw [hp] at ha
      generalize s.main = old at ha
      cases ha
    | cancels f stage hp =>
      rcases afterStage_cases MainPc.cancelling .deciding f stage with he | ⟨next, he⟩ <;>
        (intro hp; dsimp only at hp; rw [he] at hp; cases hp)
    | creates created hp =>
      have hcreates := create_creates (c := c) (s := s) created
      generalize s.create c created = t at hcreates
      cases hcreates <;> (intro hp; cases hp)
    | shuts f stage hp =>
      rcases afterStage_cases MainPc.shutting .joiningScanner f stage with he | ⟨next, he⟩ <;>
        (intro hp; dsimp only at hp; rw [he] at hp; cases hp)
    | joinsWriter hp ho => exact fun _ => rfl
    | _ => exact fun hp => by cases hp

/-- `create_snapshot` has returned or thrown. -/
def MainPc.ended : MainPc → Bool
  | .failing _ | .published => true
  | _ => false

/-- A step that the program takes by itself, without an exception of the outside. -/
def Label.plain : Label → Bool
  | .scanner a | .worker _ a | .writer a | .progress a | .main a => a.plain
  | .canceller => true
  | .requestExternalStop => false

/-- Everything that holds in all states of the pipeline with its parked threads. -/
structure Afoot (c : Config) (u : Parking) : Prop where
  parked : Parked c u
  equipped : Equipped u.pipeline
  finishing : Finishing u.pipeline

theorem Afoot.step {a : Action} {v : Parking} (hr : 0 < c.resultQueueCapacity) (h : Afoot c u)
    (hstep : u.step c x a = some v) : Afoot c v := by
  have hparked := h.parked.step hr hstep
  cases a with
  | goes l chosen =>
    simp only [Parking.step] at hstep
    split at hstep
    · cases hstep
    · obtain ⟨t, ht, hstep⟩ := Option.bind_eq_some_iff.mp hstep
      obtain ⟨parked, -, hstep⟩ := Option.bind_eq_some_iff.mp hstep
      cases hstep
      have hm := step_move ht
      exact ⟨hparked, hm.equipped h.parked.orderly.young h.equipped, hm.finishing h.finishing⟩
  | parks thread =>
    simp only [Parking.step] at hstep
    split at hstep
    · cases hstep
      exact ⟨hparked, h.equipped, h.finishing⟩
    · cases hstep
  | wakes thread =>
    simp only [Parking.step] at hstep
    split at hstep
    · cases hstep
      exact ⟨hparked, h.equipped, h.finishing⟩
    · cases hstep

theorem runs_afoot {v : Vault} {e : Bool} {actions : List Action} (hw : 0 < c.workerCount)
    (hr : 0 < c.resultQueueCapacity)
    (h : runs (Parking.step c x) (.start c v e) actions = some u) : Afoot c u :=
  runs_invariant (P := Afoot c) (Q := fun _ => True) (fun _ _ _ _ hs hstep => hs.step hr hstep)
    ⟨parked_start hw, nofun, nofun⟩ (fun _ _ => trivial) h

/-- All threads that have to wait can be parked, one after the other. -/
theorem Parked.settle (x : Externals) (hr : 0 < c.resultQueueCapacity) (h : Parked c u)
    (threads : List Thread) : ∃ v, v.pipeline = u.pipeline ∧ Parked c v ∧
      (∀ thread, u.parked thread = true → v.parked thread = true) ∧
      ∀ thread ∈ threads, thread ∈ crew c → u.pipeline.mustWait c thread = true →
        v.parked thread = true := by
  induction threads with
  | nil => exact ⟨u, rfl, h, fun _ => id, nofun⟩
  | cons first threads ih =>
    obtain ⟨v, hv, hparked, hkept, hwaits⟩ := ih
    by_cases hpark : first ∈ crew c ∧ v.parked first = false ∧ v.pipeline.mustWait c first = true
    · have hstep : v.step c x (.parks first) =
          some { v with parked := Function.update v.parked first true } := if_pos hpark
      have hmono : ∀ thread, v.parked thread = true →
          Function.update v.parked first true thread = true := by
        intro thread ht
        by_cases he : thread = first
        · rw [he, Function.update_self]
        · rwa [Function.update_of_ne he]
      refine ⟨{ v with parked := Function.update v.parked first true }, hv, hparked.step hr hstep,
        fun thread ht => hmono thread (hkept thread ht), ?_⟩
      intro thread hmem hcrew hwait
      rcases List.mem_cons.mp hmem with rfl | hmem
      · exact Function.update_self _ _ _
      · exact hmono thread (hwaits thread hmem hcrew hwait)
    · refine ⟨v, hv, hparked, hkept, fun thread hmem hcrew hwait => ?_⟩
      rcases List.mem_cons.mp hmem with rfl | hmem
      · by_contra hfree
        exact hpark ⟨hcrew, by simpa using hfree, hv ▸ hwait⟩
      · exact hwaits thread hmem hcrew hwait

/-- One of the unfinished threads is neither parked nor has to wait. -/
theorem Parked.someone (x : Externals) (hw : 0 < c.workerCount) (hj : 0 < c.jobQueueCapacity)
    (hr : 0 < c.resultQueueCapacity) (h : Parked c u)
    (hsome : ∃ thread ∈ .main :: crew c, u.pipeline.unfinished thread = true) :
    ∃ thread ∈ .main :: crew c, u.pipeline.unfinished thread = true ∧ u.parked thread = false ∧
      u.pipeline.mustWait c thread = false := by
  by_contra hnobody
  push Not at hnobody
  obtain ⟨v, hv, hparked, hkept, hwaits⟩ := h.settle x hr (crew c)
  have hall : ∀ thread ∈ .main :: crew c, v.pipeline.unfinished thread = true →
      v.parked thread = true := by
    intro thread hmem hunfinished
    rw [hv] at hunfinished
    cases hp : u.parked thread with
    | true => exact hkept thread hp
    | false =>
      have hwait := hnobody thread hmem hunfinished hp
      rw [Bool.ne_false_iff] at hwait
      rcases List.mem_cons.mp hmem with rfl | hcrew
      · cases hwait
      · exact hwaits thread hcrew hcrew hwait
  exact Strands.absurd ⟨hparked, hv ▸ hsome, hall⟩ hj hw

/-- A step of the pipeline notifies somebody, if the thread is not parked. -/
theorem goes_of_step (hl : l.thread.any u.parked = false)
    (h : (Snapshot.step c x u.pipeline l).isSome = true) :
    ∃ chosen v, u.step c x (.goes l chosen) = some v := by
  obtain ⟨t, ht⟩ := Option.isSome_iff_exists.mp h
  obtain ⟨chosen, parked, hwake⟩ :=
    Signal.wake_exists (crew c) u.pipeline.condition u.parked (u.pipeline.signal t)
  refine ⟨chosen, ⟨t, parked⟩, ?_⟩
  simp [Parking.step, hl, ht, hwake]

/-- An unfinished thread that is neither parked nor has to wait takes a step. -/
theorem Afoot.advances (h : Afoot c u) (hmem : thread ∈ .main :: crew c)
    (hunfinished : u.pipeline.unfinished thread = true) (hparked : u.parked thread = false)
    (hwait : u.pipeline.mustWait c thread = false) :
    ∃ l chosen v, l.plain = true ∧ u.step c x (.goes l chosen) = some v := by
  cases thread with
  | main =>
    obtain ⟨chosen, v, hv⟩ := goes_of_step (c := c) (x := x) (u := u) (l := .main .next) rfl
      (main_advances hunfinished)
    exact ⟨.main .next, chosen, v, rfl, hv⟩
  | scanner =>
    obtain ⟨a, ha, hstep⟩ := scanner_advances (by simpa [State.unfinished] using hunfinished) hwait
    obtain ⟨chosen, v, hv⟩ := goes_of_step (x := x) (l := .scanner a) hparked hstep
    exact ⟨.scanner a, chosen, v, ha, hv⟩
  | worker i =>
    obtain ⟨a, ha, hstep⟩ :=
      worker_advances (x := x) (by simpa [State.unfinished] using hunfinished) hwait
    have hi : i < c.workerCount := by simpa [crew] using hmem
    obtain ⟨chosen, v, hv⟩ := goes_of_step (c := c) (l := .worker i a) hparked
      (by simpa [Snapshot.step, hi] using hstep)
    exact ⟨.worker i a, chosen, v, ha, hv⟩
  | writer =>
    obtain ⟨a, ha, hstep⟩ :=
      writer_advances h.equipped (by simpa [State.unfinished] using hunfinished) hwait
    obtain ⟨chosen, v, hv⟩ := goes_of_step (x := x) (l := .writer a) hparked hstep
    exact ⟨.writer a, chosen, v, ha, hv⟩

/-- Behind the end of the other threads the calling thread comes to its own, unless it waits for
the progress thread or for a stop callback, and these go on. -/
theorem Afoot.concludes (h : Afoot c u) (hmain : u.pipeline.main.ended = false)
    (hover : ∀ thread ∈ .main :: crew c, u.pipeline.unfinished thread = false) :
    ∃ l, l.thread = none ∧ l.plain = true ∧ (Snapshot.step c x u.pipeline l).isSome = true := by
  have hlaunching : u.pipeline.main.launching = false := hover .main (by simp)
  have hscanner : u.pipeline.scanner.over = true := by
    simpa [State.unfinished] using hover .scanner (by simp [crew])
  have hwriter : u.pipeline.writer.over = true := by
    simpa [State.unfinished] using hover .writer (by simp [crew])
  have hworkers : ∀ i < c.workerCount, (u.pipeline.workers i).pc.over = true := fun i hi => by
    simpa [State.unfinished] using hover (.worker i) (by simp [crew, hi])
  cases hp : u.pipeline.main with
  | joiningScanner => exact ⟨.main .next, rfl, rfl, by simp [Snapshot.step, stepMain, hp, hscanner]⟩
  | joiningWorkers =>
    exact ⟨.main .next, rfl, rfl, by simpa [Snapshot.step, stepMain, hp] using hworkers⟩
  | joiningWriter => exact ⟨.main .next, rfl, rfl, by simp [Snapshot.step, stepMain, hp, hwriter]⟩
  | joiningProgress =>
    cases hprogress : u.pipeline.progress with
    | running =>
      refine ⟨.progress .next, rfl, rfl, ?_⟩
      simp [Snapshot.step, stepProgress, hprogress, h.finishing hp]
    | shutting f stage =>
      exact ⟨.progress .next, rfl, rfl, by simp [Snapshot.step, stepProgress, hprogress]⟩
    | waiting =>
      refine ⟨.main .next, rfl, rfl, ?_⟩
      simp [Snapshot.step, stepMain, hp, hprogress, ProgressPc.over]
    | done =>
      refine ⟨.main .next, rfl, rfl, ?_⟩
      simp [Snapshot.step, stepMain, hp, hprogress, ProgressPc.over]
  | unregistering =>
    cases hcanceller : u.pipeline.canceller with
    | shutting f stage =>
      exact ⟨.canceller, rfl, rfl, by simp [Snapshot.step, stepCanceller, hcanceller]⟩
    | idle =>
      refine ⟨.main .next, rfl, rfl, ?_⟩
      simp [Snapshot.step, stepMain, hp, hcanceller, CancellerPc.over]
    | done =>
      refine ⟨.main .next, rfl, rfl, ?_⟩
      simp [Snapshot.step, stepMain, hp, hcanceller, CancellerPc.over]
  | rethrowing =>
    refine ⟨.main .next, rfl, rfl, ?_⟩
    cases he : u.pipeline.firstError <;> simp [Snapshot.step, stepMain, hp, he]
  | concluding =>
    refine ⟨.main (.ticks 0), rfl, rfl, ?_⟩
    cases he : u.pipeline.externalStop <;> simp [Snapshot.step, stepMain, hp, he]
  | finalizing => exact ⟨.main .next, rfl, rfl, by simp [Snapshot.step, stepMain, hp]⟩
  | checkingLast => exact ⟨.main .next, rfl, rfl, by simp [Snapshot.step, stepMain, hp]⟩
  | publishing =>
    refine ⟨.main (.ticks 0), rfl, rfl, ?_⟩
    rcases hdb : markSnapshotComplete c.snapshotId u.pipeline.totals 0 u.pipeline.vault.db with
      ⟨_ | _, db⟩ <;> simp [Snapshot.step, stepMain, hp, hdb]
  | failing f => simp [hp, MainPc.ended] at hmain
  | published => simp [hp, MainPc.ended] at hmain
  | _ => simp [hp, MainPc.launching] at hlaunching

/-- As long as `create_snapshot` has not come to its end, one of its threads goes on by itself,
whoever is parked. -/
theorem pipeline_goes_on {v : Vault} {e : Bool} {actions : List Action}
    (hw : 0 < c.workerCount) (hj : 0 < c.jobQueueCapacity) (hr : 0 < c.resultQueueCapacity)
    (h : runs (Parking.step c x) (.start c v e) actions = some u)
    (hmain : u.pipeline.main.ended = false) :
    ∃ l chosen w, l.plain = true ∧ u.step c x (.goes l chosen) = some w := by
  have hafoot := runs_afoot hw hr h
  by_cases hsome : ∃ thread ∈ .main :: crew c, u.pipeline.unfinished thread = true
  · obtain ⟨thread, hmem, hunfinished, hparked, hwait⟩ := hafoot.parked.someone x hw hj hr hsome
    exact hafoot.advances hmem hunfinished hparked hwait
  · push Not at hsome
    obtain ⟨l, hnone, hplain, hstep⟩ := hafoot.concludes (x := x) hmain fun thread hmem => by
      simpa using hsome thread hmem
    obtain ⟨chosen, w, hw⟩ := goes_of_step (by rw [hnone]; rfl) hstep
    exact ⟨l, chosen, w, hplain, hw⟩

theorem pipeline_goes_on_writer : ∃ u,
    runs (Parking.step sampleConfig sampleExternals) (.start sampleConfig sampleVault false)
      sampleActions = some u ∧
    u.parked .writer = true ∧ ∃ l chosen w,
      l.plain = true ∧ u.step sampleConfig sampleExternals (.goes l chosen) = some w := by
  have hrun : (runs (Parking.step sampleConfig sampleExternals)
      (.start sampleConfig sampleVault false) sampleActions).any
      (fun u => u.parked .writer && !u.pipeline.main.ended) = true := by decide +kernel
  obtain ⟨u, hu, hwriter⟩ := (Option.any_eq_true _ _).mp hrun
  rw [Bool.and_eq_true, Bool.not_eq_true'] at hwriter
  exact ⟨u, hu, hwriter.1,
    pipeline_goes_on (by decide) (by decide) (by decide) hu hwriter.2⟩

end LocalVault.Snapshot
