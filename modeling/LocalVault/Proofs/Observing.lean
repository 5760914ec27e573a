import LocalVault.Proofs.Joins
import LocalVault.Snapshot.Aggregator

namespace LocalVault.Snapshot
open Library Repository

variable {c : Config} {x : Externals} {w u : Observed} {s t : State} {a b : ProgressAggregator}
  {r r' : Recorder} {m m' : Emitter}

/-- What one access of `record_discovered` or `record_processed` can be. -/
inductive Records (a : ProgressAggregator) : Recorder → Recorder → ProgressAggregator → Prop
  | loads (k : Counter) (value : Nat) (rest : List (Counter × Nat)) (current : Option Nat)
      (path : Path) : Records a (.adding ((k, value) :: rest) current path)
        (.adding ((k, value) :: rest) (some (a.counters k)) path) a
  | stores (k : Counter) (value : Nat) (rest : List (Counter × Nat)) (path : Path)
      (h : a.counters k ≤ maximumByteCount - value) :
      Records a (.adding ((k, value) :: rest) (some (a.counters k)) path) (.adding rest none path)
        (a.store k (a.counters k + value))
  | notifies (current : Option Nat) (path : Path) :
      Records a (.adding [] current path) .recorded (a.notify path)

theorem next_records {weak : Bool} (h : r.next a weak = some (.ok (r', b))) : Records a r r' b := by
  unfold Recorder.next at h
  split at h
  · cases h
    exact .loads _ _ _ _ _
  · split at h
    · cases h
    · rename_i hroom
      split at h
      · rename_i hsame
        cases h
        obtain ⟨rfl, -⟩ := hsame
        exact .stores _ _ _ _ (by omega)
      · cases h
        exact .loads _ _ _ _ _
  · cases h
    exact .notifies _ _
  · cases h

/-- What one step of `emit` can be, as long as the callback does not throw. -/
inductive EmitMove (w : Observed) : Emitter → Observed → Emitter → Prop
  | lets (n : Notice)
      (h : ProgressAggregator.admits (w.aggregator.recent w.now) n.occasion.required = true) :
      EmitMove w (.asked n) { w with
        aggregator := { w.aggregator with
          emissions := w.aggregator.recent w.now ++ [⟨w.now, n.occasion.required⟩] }
        emitted := w.emitted ++ [⟨w.now, n.occasion.required⟩] } (.building ⟨n, w.now, none, []⟩)
  | suppresses (n : Notice)
      (h : ProgressAggregator.admits (w.aggregator.recent w.now) n.occasion.required = false) :
      EmitMove w (.asked n) { w with
        aggregator := { w.aggregator with emissions := w.aggregator.recent w.now }
        suppressed := w.suppressed ++ [n] } .over
  | drafts (d d' : Draft) (h : d.next w.aggregator = some d') :
      EmitMove w (.building d) w (.building d')
  | delivers (d : Draft) (h : d.next w.aggregator = none) :
      EmitMove w (.building d) { w with delivered := w.delivered ++ [⟨d, w.now⟩] } .over

theorem emit_move (h : w.emit m = some (u, m')) : EmitMove w m u m' := by
  unfold Observed.emit at h
  split at h
  · dsimp only at h
    split at h
    · cases h
      exact .lets _ ‹_›
    · rename_i hfull
      cases h
      exact .suppresses _ (by simpa using hfull)
  · split at h
    · cases h
      exact .drafts _ _ ‹_›
    · cases h
      exact .delivers _ ‹_›
  · cases h

theorem delivers_eq (h : w.delivers m = some u) :
    ∃ d, m = .building d ∧ d.next w.aggregator = none ∧
      u = { w with delivered := w.delivered ++ [⟨d, w.now⟩] } := by
  unfold Observed.delivers at h
  split at h
  · split at h
    · cases h
    · cases h
      exact ⟨_, rfl, ‹_›, rfl⟩
  · cases h

/-- What can happen in a call of `create_snapshot`. -/
inductive Happens (c : Config) (x : Externals) (w : Observed) : Observed → Prop
  | scanner {t : State} (hm : ScannerMove c w.pipeline t)
      (settled : ∀ e rest, w.pipeline.scanner = .emitting (.entry e :: rest) →
        w.scanner.settled = true)
      (recorded : ∀ e rest, w.pipeline.scanner = .emitting (.entry e :: rest) →
        t.scanner = .pushing (.entry e) rest → w.scanner = .recorded)
      (closing : w.pipeline.scanner = .closing → w.aggregator.scanComplete = true) :
      Happens c x w { w with pipeline := t, scanner := w.scanner.leave }
  | worker {t : State} (i : Nat) (hi : i < c.workerCount) (hm : WorkerMove c x w.pipeline i t)
      (settled : ∀ p e, (w.pipeline.workers i).pc = .finished p → p.value = .entry e →
        (w.workers i).settled = true)
      (recorded : ∀ p e, (w.pipeline.workers i).pc = .finished p → p.value = .entry e →
        (t.workers i).pc = .pushing p → w.workers i = .recorded) :
      Happens c x w { w with
        pipeline := t, workers := Function.update w.workers i (w.workers i).leave }
  | writer {t : State} (hm : WriterMove c w.pipeline t) : Happens c x w { w with pipeline := t }
  | main {t : State} (hm : MainMove c w.pipeline t) (running : w.course = .running)
      (through : w.pipeline.main = .announcing ∨ w.pipeline.main = .finalizing → w.caller = .over) :
      Happens c x w { w with pipeline := t, caller := w.caller.leave }
  | other {t : State} (hm : OtherMove c w.pipeline t)
      (ends : w.pipeline.progress = .running → t.progress ≠ .running →
        w.runner = .waiting ∧ (w.pipeline.progressCancelled = true ∨
          w.pipeline.progressFinished = true ∧ w.aggregator.dirty = false)) :
      Happens c x w { w with pipeline := t }
  | finds (e : ScannedEntry) (rest : List FileJob)
      (hp : w.pipeline.scanner = .emitting (.entry e :: rest)) (hr : w.scanner = .idle) :
      Happens c x w { w with
        scanner := .adding (discovery e) none e.sourcePath, found := w.found ++ [e] }
  | discovers (e : ScannedEntry) (rest : List FileJob) (r : Recorder) (b : ProgressAggregator)
      (hp : w.pipeline.scanner = .emitting (.entry e :: rest))
      (hr : Records w.aggregator w.scanner r b) :
      Happens c x w { w with scanner := r, aggregator := b }
  | scannerOverflows {t : State} (e : ScannedEntry) (rest : List FileJob) (f : Failure)
      (hp : w.pipeline.scanner = .emitting (.entry e :: rest)) (hm : ScannerMove c w.pipeline t)
      (hr : w.scanner.settled = false) (ht : t.scanner = .shutting f .record) :
      Happens c x w { w with pipeline := t }
  | begins (i : Nat) (p : ProcessedEntry) (e : ScannedEntry) (hi : i < c.workerCount)
      (hp : (w.pipeline.workers i).pc = .finished p) (hv : p.value = .entry e)
      (hr : w.workers i = .idle) :
      Happens c x w { w.setRecorder i (.adding (processing p e) none e.sourcePath) with
        recorded := w.recorded ++ [p] }
  | processes (i : Nat) (p : ProcessedEntry) (e : ScannedEntry) (r : Recorder)
      (b : ProgressAggregator) (hi : i < c.workerCount)
      (hp : (w.pipeline.workers i).pc = .finished p) (hv : p.value = .entry e)
      (hr : Records w.aggregator (w.workers i) r b) :
      Happens c x w { w.setRecorder i r with aggregator := b }
  | workerOverflows {t : State} (i : Nat) (p : ProcessedEntry) (e : ScannedEntry) (f : Failure)
      (hi : i < c.workerCount) (hp : (w.pipeline.workers i).pc = .finished p)
      (hv : p.value = .entry e) (hm : WorkerMove c x w.pipeline i t)
      (hr : (w.workers i).settled = false) (ht : (t.workers i).pc = .shutting f .record) :
      Happens c x w { w with pipeline := t }
  | marks (hp : w.pipeline.scanner = .closing) (hn : w.aggregator.scanComplete = false) :
      Happens c x w { w with aggregator := w.aggregator.markScanComplete c.source }
  | asks (n : Notice) (hd : w.due c = some n) (hi : w.caller = .idle) :
      Happens c x w { w.ask n with caller := .asked n }
  | callerEmits {u : Observed} (n : Notice) (m : Emitter) (hd : w.due c = some n)
      (hm : EmitMove w w.caller u m) : Happens c x w { u with caller := m }
  | callerThrows {t : State} (n : Notice) (d : Draft) (hd : w.due c = some n)
      (hc : w.caller = .building d) (hn : d.next w.aggregator = none)
      (hm : MainMove c w.pipeline t) (running : w.course = .running)
      (ht : ∃ f, t.main = .failing f) :
      Happens c x w { w with
        delivered := w.delivered ++ [⟨d, w.now⟩], pipeline := t, caller := .idle }
  | abandons (d : Draft) (hp : w.course = .preparing) (hc : w.caller = .building d)
      (hn : d.next w.aggregator = none) :
      Happens c x w { w with
        delivered := w.delivered ++ [⟨d, w.now⟩], course := .thrown, caller := .idle }
  | consumes (hp : w.pipeline.progress = .running) (hr : w.runner = .waiting)
      (hd : w.aggregator.dirty = true) (hc : w.pipeline.progressCancelled = false) :
      Happens c x w { w with
        aggregator := { w.aggregator with dirty := false, scanCompletionPending := false }
        runner := .consumed w.aggregator.currentPath w.aggregator.scanCompletionPending }
  | judges (path : Path) (completion : Bool) (hp : w.pipeline.progress = .running)
      (hr : w.runner = .consumed path completion) :
      Happens c x w { w.ask (w.judged path completion).1 with
        runner := .emitting (w.judged path completion).2
        emitter := .asked (w.judged path completion).1 }
  | resumes (sets : Bool) (hp : w.pipeline.progress = .running) (hr : w.runner = .emitting sets)
      (he : w.emitter = .over) :
      Happens c x w { w with
        aggregator := { w.aggregator with
          writingPhaseEmitted := w.aggregator.writingPhaseEmitted || sets }
        runner := .waiting
        emitter := .idle }
  | runnerEmits {u : Observed} (sets : Bool) (m : Emitter) (hp : w.pipeline.progress = .running)
      (hr : w.runner = .emitting sets) (hm : EmitMove w w.emitter u m) :
      Happens c x w { u with emitter := m }
  | runnerThrows {t : State} (d : Draft) (hp : w.pipeline.progress = .running)
      (he : w.emitter = .building d) (hn : d.next w.aggregator = none)
      (hm : OtherMove c w.pipeline t) (ht : ∃ f, t.progress = .shutting f .record) :
      Happens c x w { w with
        delivered := w.delivered ++ [⟨d, w.now⟩], pipeline := t, runner := .waiting
        emitter := .idle }
  | opens (hp : w.course = .preparing) (hc : w.caller = .over) :
      Happens c x w { w with course := .running, caller := .idle }
  | returns (hr : w.course = .running) (hp : w.pipeline.main = .published)
      (hc : w.caller = .over) : Happens c x w { w with course := .returned }
  | clock (now : Int) (h : w.now ≤ now) : Happens c x w { w with now }

theorem moves_eq {l : Label} (h : w.moves c x l = some u) :
    ∃ t, step c x w.pipeline l = some t ∧ u = { w with pipeline := t } := by
  obtain ⟨t, ht, rfl⟩ := Option.map_eq_some_iff.mp h
  exact ⟨t, ht, rfl⟩

/-- The scanner enters a push only out of the scan. -/
theorem pushing_next {act : Act} {job : FileJob} {rest : List FileJob}
    (h : stepScanner c s act = some t) (hp : ∃ jobs, s.scanner = .emitting jobs)
    (ht : t.scanner = .pushing job rest) : act = .next := by
  obtain ⟨jobs, hp⟩ := hp
  cases act with
  | next => rfl
  | seesStop =>
    simp only [stepScanner, hp] at h
    split at h
    · cases h
      cases ht
    · cases h
  | raises e =>
    simp only [stepScanner, hp] at h
    cases h
    cases ht
  | _ => simp [stepScanner, hp] at h

theorem finished_next {i : Nat} {act : Act} {p q : ProcessedEntry}
    (h : stepWorker c x s i act = some t) (hp : (s.workers i).pc = .finished p)
    (ht : (t.workers i).pc = .pushing q) : act = .next := by
  cases act with
  | next => rfl
  | raises e =>
    simp only [stepWorker, hp, raisedIn, Option.map_some, Option.some.injEq] at h
    subst h
    rw [State.moveWorker, setWorker_same] at ht
    cases ht
  | _ => simp [stepWorker, hp] at h

theorem ends_finished (h : stepProgress s .next = some t) (hp : s.progress = .running) :
    s.progressCancelled = true ∨ s.progressFinished = true := by
  simp only [stepProgress, hp] at h
  split at h
  · rename_i hends
    simpa using hends
  · cases h

theorem canceller_progress (h : stepCanceller s = some t) : t.progress = s.progress := by
  unfold stepCanceller at h
  split at h
  · cases h
    exact shut_untouched.progress
  · cases h

theorem request_progress (h : stepRequest c s = some t) : t.progress = s.progress := by
  unfold stepRequest at h
  split at h
  · cases h
  · split at h <;> cases h <;> rfl

theorem overflow_adding {weak : Bool} {e : LocalVaultError}
    (h : r.next a weak = some (.error e)) : r.settled = false := by
  cases r with
  | adding adds current path => rfl
  | _ => cases h

theorem pipeline_happens {l : Label} (hr : w.ready l = true) (h : w.moves c x l = some u) :
    Happens c x w (u.leave l) := by
  obtain ⟨t, ht, rfl⟩ := moves_eq h
  cases l with
  | scanner act =>
    have hstep : stepScanner c w.pipeline act = some t := ht
    refine .scanner (stepScanner_move hstep) ?_ ?_ ?_
    · intro e rest hp
      simp only [Observed.ready, hp] at hr
      split at hr
      · rw [decide_eq_true_eq] at hr
        rw [hr]
        rfl
      · exact hr
    · intro e rest hp hpush
      have hnext := pushing_next hstep ⟨_, hp⟩ hpush
      simpa [Observed.ready, hp, hnext] using hr
    · intro hp
      simpa [Observed.ready, hp] using hr
  | worker i act =>
    simp only [step] at ht
    split at ht
    · rename_i hi
      refine .worker i hi (stepWorker_move ht) ?_ ?_
      · intro p e hp hv
        simp only [Observed.ready, hp, hv] at hr
        split at hr
        · rw [decide_eq_true_eq] at hr
          rw [hr]
          rfl
        · exact hr
      · intro p e hp hv hpush
        have hnext := finished_next ht hp hpush
        simpa [Observed.ready, hp, hv, hnext] using hr
    · cases ht
  | writer act => exact .writer (stepWriter_move ht)
  | progress act =>
    refine .other (stepProgress_move ht) fun hp _ => ?_
    simp only [Observed.ready, hp, Bool.and_eq_true, decide_eq_true_eq, Bool.or_eq_true,
      Bool.not_eq_true'] at hr
    obtain ⟨⟨rfl, hwaits⟩, hends⟩ := hr
    refine ⟨hwaits, ?_⟩
    rcases ends_finished ht hp with hcancelled | hfinished
    · exact .inl hcancelled
    · exact hends.imp id fun hclean => ⟨hfinished, hclean⟩
  | canceller =>
    exact .other (stepCanceller_move ht) fun hp hn => absurd ((canceller_progress ht).trans hp) hn
  | main act =>
    simp only [Observed.ready, Bool.and_eq_true, decide_eq_true_eq] at hr
    obtain ⟨hcourse, hover⟩ := hr
    refine .main (stepMain_move ht) hcourse fun hp => ?_
    rcases hp with hp | hp <;> simp only [hp, Bool.and_eq_true, decide_eq_true_eq] at hover <;>
      exact hover.2
  | requestExternalStop =>
    exact .other (stepRequest_move ht) fun hp hn => absurd ((request_progress ht).trans hp) hn

theorem scannerRecords_happens {weak : Bool} (h : w.scannerRecords c x weak = some u) :
    Happens c x w u := by
  unfold Observed.scannerRecords at h
  split at h
  · rename_i e rest hp hr
    cases h
    exact .finds e rest hp hr
  · rename_i e rest hp hr
    split at h
    · rename_i r b hnext
      cases h
      exact .discovers e rest r b hp (next_records hnext)
    · rename_i error hnext
      obtain ⟨t, ht, rfl⟩ := moves_eq h
      have hstep : stepScanner c w.pipeline (.raises (.localVault error)) = some t := ht
      refine .scannerOverflows e rest ⟨.localVault error, true⟩ hp (stepScanner_move hstep)
        (overflow_adding hnext) ?_
      simp only [stepScanner, hp] at hstep
      cases hstep
      rfl
    · cases h
  · cases h

theorem workerRecords_happens {i : Nat} {weak : Bool} (hi : i < c.workerCount)
    (h : w.workerRecords c x i weak = some u) : Happens c x w u := by
  unfold Observed.workerRecords at h
  split at h
  · rename_i p hp
    split at h
    · rename_i e hv hr
      cases h
      exact .begins i p e hi hp hv hr
    · rename_i e hv hr
      split at h
      · rename_i r b hnext
        cases h
        exact .processes i p e r b hi hp hv (next_records hnext)
      · rename_i error hnext
        obtain ⟨t, ht, rfl⟩ := moves_eq h
        simp only [step, hi, if_true] at ht
        refine .workerOverflows i p e ⟨.localVault error, true⟩ hi hp hv (stepWorker_move ht)
          (overflow_adding hnext) ?_
        simp only [stepWorker, hp, raisedIn, Option.map_some, Option.some.injEq] at ht
        rw [← ht, State.moveWorker, setWorker_same]
        rfl
      · cases h
    · cases h
  · cases h

theorem due_place {n : Notice} (hc : w.course = .running) (hd : w.due c = some n)
    (hp : w.pipeline.main ≠ .published) :
    w.pipeline.main = .announcing ∨ w.pipeline.main = .finalizing := by
  unfold Observed.due at hd
  split at hd
  · rename_i hcourse
    rw [hc] at hcourse
    cases hcourse
  · exact .inl ‹_›
  · exact .inr ‹_›
  · exact absurd ‹_› hp
  · cases hd

theorem raises_failing {e : Raised} (hp : s.main = .announcing ∨ s.main = .finalizing)
    (h : stepMain c s (.raises e) = some t) : ∃ f, t.main = .failing f := by
  rcases hp with hp | hp <;> simp only [stepMain, hp, Option.some.injEq] at h <;>
    exact ⟨_, by rw [← h]⟩

theorem callerThrows_happens {e : Raised} {n : Notice} (hd : w.due c = some n) {v : Observed}
    (hv : w.delivers w.caller = some v) (h : v.callerThrows c x e = some u) : Happens c x w u := by
  obtain ⟨d, hcaller, hnext, rfl⟩ := delivers_eq hv
  unfold Observed.callerThrows at h
  split at h
  · rename_i hcourse
    cases h
    exact .abandons d hcourse hcaller hnext
  · cases h
    exact .callerEmits n .over hd (hcaller ▸ .delivers d hnext)
  · rename_i hcourse hp
    obtain ⟨t, ht, rfl⟩ := moves_eq h
    have hstep : stepMain c w.pipeline (.raises e) = some t := ht
    exact .callerThrows n d hd hcaller hnext (stepMain_move hstep) hcourse
      (raises_failing (due_place hcourse hd hp) hstep)
  · cases h

theorem callerEmits_happens {throws : Option Raised} (h : w.callerEmits c x throws = some u) :
    Happens c x w u := by
  unfold Observed.callerEmits at h
  split at h
  · rename_i n hd hc
    cases h
    exact .asks n hd hc
  · rename_i n hd hidle
    obtain ⟨⟨v, m⟩, hm, rfl⟩ := Option.map_eq_some_iff.mp h
    exact .callerEmits n m hd (emit_move hm)
  · rename_i n e hd
    obtain ⟨v, hv, ht⟩ := Option.bind_eq_some_iff.mp h
    exact callerThrows_happens hd hv ht
  · cases h

theorem runs_happens {throws : Option Raised} (h : w.runs c x throws = some u) :
    Happens c x w u := by
  unfold Observed.runs at h
  split at h
  · rename_i hp
    unfold Observed.goesOn at h
    split at h
    · rename_i hr
      split at h
      · rename_i hgoes
        cases h
        simp only [Bool.and_eq_true, Bool.not_eq_true'] at hgoes
        exact .consumes hp hr hgoes.1 hgoes.2
      · cases h
    · rename_i path completion hr
      cases h
      exact .judges path completion hp hr
    · rename_i sets hr he
      cases h
      exact .resumes sets hp hr he
    · rename_i sets hr he
      obtain ⟨⟨v, m⟩, hm, rfl⟩ := Option.map_eq_some_iff.mp h
      exact .runnerEmits sets m hp hr (emit_move hm)
  · rename_i e hp
    obtain ⟨v, hv, ht⟩ := Option.bind_eq_some_iff.mp h
    obtain ⟨d, hemitter, hnext, rfl⟩ := delivers_eq hv
    obtain ⟨t, hmove, rfl⟩ := moves_eq ht
    have hstep : stepProgress w.pipeline (.raises e) = some t := hmove
    refine .runnerThrows d hp hemitter hnext (stepProgress_move hstep) ?_
    simp only [stepProgress, hp, Option.some.injEq] at hstep
    exact ⟨_, by rw [← hstep]⟩
  · cases h

/-- Every step is one of these. -/
theorem step_happens {turn : Turn} (h : w.step c x turn = some u) : Happens c x w u := by
  cases turn with
  | pipeline l =>
    simp only [Observed.step] at h
    split at h
    · obtain ⟨v, hv, rfl⟩ := Option.map_eq_some_iff.mp h
      exact pipeline_happens ‹_› hv
    · cases h
  | scannerRecords weak => exact scannerRecords_happens h
  | workerRecords i weak =>
    simp only [Observed.step] at h
    split at h
    · exact workerRecords_happens ‹_› h
    · cases h
  | marksScanComplete =>
    simp only [Observed.step, Observed.marksScanComplete] at h
    split at h
    · rename_i hp
      split at h
      · cases h
      · rename_i hn
        cases h
        exact .marks hp (by simpa using hn)
    · cases h
  | callerEmits throws => exact callerEmits_happens h
  | runs throws => exact runs_happens h
  | opens =>
    simp only [Observed.step] at h
    split at h
    · rename_i hopen
      cases h
      exact .opens hopen.1 hopen.2
    · cases h
  | returns =>
    simp only [Observed.step] at h
    split at h
    · rename_i hreturn
      cases h
      exact .returns hreturn.1 hreturn.2.1 hreturn.2.2
    · cases h
  | clock now =>
    simp only [Observed.step] at h
    split at h
    · cases h
      exact .clock now ‹_›
    · cases h

/-- What the start has and every step keeps holds in every state of a run. -/
theorem observed_invariant {P : Observed → Prop}
    (hstep : ∀ w turn u, P w → w.step c x turn = some u → P u) {turns : List Turn} (hw : P w)
    (h : w.run c x turns = some u) : P u := by
  induction turns generalizing w with
  | nil =>
    cases h
    exact hw
  | cons turn turns ih =>
    obtain ⟨v, hv, hu⟩ := Option.bind_eq_some_iff.mp h
    exact ih (hstep w turn v hw hv) hu

end LocalVault.Snapshot
