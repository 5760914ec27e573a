import LocalVault.Proofs.Passage
import LocalVault.Proofs.Sequence

namespace LocalVault.Snapshot
open Library Repository

variable {c : Config} {x : Externals} {w u : Observed} {s t : State} {a b : ProgressAggregator}
  {r r' : Recorder} {m m' : Emitter}

/-- What a list of additions brings to a counter. -/
def amount (adds : List (Counter × Nat)) (k : Counter) : Nat :=
  ((adds.filter (fun add => add.1 = k)).map Prod.snd).sum

theorem amount_cons (k' k : Counter) (value : Nat) (rest : List (Counter × Nat)) :
    amount ((k', value) :: rest) k = (if k' = k then value else 0) + amount rest k := by
  unfold amount
  by_cases h : k' = k
  · rw [List.filter_cons_of_pos (by simpa using h), if_pos h]
    rfl
  · rw [List.filter_cons_of_neg (by simpa using h), if_neg h, Nat.zero_add]

/-- What a call of the aggregator still has to add. -/
def Recorder.pending (r : Recorder) (k : Counter) : Nat :=
  match r with
  | .adding adds _ _ => amount adds k
  | _ => 0

theorem leave_pending (r : Recorder) (k : Counter) : r.leave.pending k = r.pending k := by
  cases r <;> rfl

theorem settled_leave (h : r.settled = true) : r.leave = .idle := by
  cases r with
  | adding adds current path => cases h
  | _ => rfl

/-- What is added was still to be added. -/
theorem Records.pending (h : Records a r r' b) (k : Counter) :
    b.counters k + r'.pending k = a.counters k + r.pending k := by
  cases h with
  | loads k' value rest current path => rfl
  | stores k' value rest path hroom =>
    change Function.update a.counters k' (a.counters k' + value) k + amount rest k =
      a.counters k + amount ((k', value) :: rest) k
    rw [amount_cons]
    by_cases hk : k' = k
    · subst hk
      rw [Function.update_self, if_pos rfl]
      omega
    · rw [Function.update_of_ne (Ne.symm hk), if_neg hk, Nat.zero_add]
  | notifies current path => rfl

theorem Records.pending_le (h : Records a r r' b) (k : Counter) : r'.pending k ≤ r.pending k := by
  have hmoved := h.pending k
  have hcounters := h.counters k
  omega

theorem Records.busy (h : Records a r r' b) : r ≠ .idle ∧ r' ≠ .idle := by
  cases h <;> exact ⟨nofun, nofun⟩

theorem Records.bounded (h : Records a r r' b) {k : Counter} (hr : r.pending k ≤ maximumByteCount)
    (hk : a.counters k ≤ maximumByteCount) : b.counters k ≤ maximumByteCount := by
  cases h with
  | loads k' value rest current path => exact hk
  | stores k' value rest path hroom =>
    change Function.update a.counters k' (a.counters k' + value) k ≤ maximumByteCount
    by_cases he : k' = k
    · subst he
      have hvalue : value + amount rest k' ≤ maximumByteCount := by
        have hpending : amount ((k', value) :: rest) k' ≤ maximumByteCount := hr
        rwa [amount_cons, if_pos rfl] at hpending
      rw [Function.update_self]
      omega
    · rw [Function.update_of_ne (Ne.symm he)]
      exact hk
  | notifies current path => exact hk

/-- The additions of a result: a warning adds nothing. -/
def ProcessedEntry.additions (p : ProcessedEntry) : List (Counter × Nat) :=
  match p.value with
  | .entry e => processing p e
  | .warning _ => []

theorem additions_entry {p : ProcessedEntry} {e : ScannedEntry} (h : p.value = .entry e) :
    p.additions = processing p e := by
  unfold ProcessedEntry.additions
  rw [h]

def Counter.discovers : Counter → Bool
  | .discoveredEntries | .discoveredBytes => true
  | _ => false

theorem discovery_amount {k : Counter} (h : k.discovers = false) (e : ScannedEntry) :
    amount (discovery e) k = 0 := by
  cases k <;> first | rfl | cases h

theorem additions_amount {k : Counter} (h : k.discovers = true) (p : ProcessedEntry) :
    amount p.additions k = 0 := by
  unfold ProcessedEntry.additions
  cases k <;> first | (cases p.value <;> rfl) | cases h

theorem additions_one (p : ProcessedEntry) : amount p.additions .processedEntries ≤ 1 := by
  unfold ProcessedEntry.additions
  cases p.value with
  | entry e => exact Nat.le_refl 1
  | warning e => exact Nat.zero_le 1

/-- The threads that record stay where they are, or are created. -/
structure Beside (w u : Observed) : Prop where
  counters : u.aggregator.counters = w.aggregator.counters
  scanner : u.scanner = w.scanner
  workers : u.workers = w.workers
  found : u.found = w.found
  recorded : u.recorded = w.recorded
  scannerPc : u.pipeline.scanner = w.pipeline.scanner ∨
    w.pipeline.scanner = .waiting ∧ u.pipeline.scanner = .starting
  workerPc : ∀ i, (u.pipeline.workers i).pc = (w.pipeline.workers i).pc ∨
    (w.pipeline.workers i).pc = .waiting ∧ (u.pipeline.workers i).pc = .starting
  given : ∀ i, (u.pipeline.workers i).given = (w.pipeline.workers i).given
  jobs : u.pipeline.jobs.items = w.pipeline.jobs.items
  failed : w.pipeline.failed → u.pipeline.failed
  complete : u.aggregator.scanComplete = w.aggregator.scanComplete ∨
    u.pipeline.scanner = .closing ∧ u.aggregator.scanComplete = true

theorem Beside.of (hp : u.pipeline = w.pipeline)
    (hc : u.aggregator.counters = w.aggregator.counters) (hs : u.scanner = w.scanner)
    (hw : u.workers = w.workers) (hf : u.found = w.found) (hr : u.recorded = w.recorded)
    (hcomplete : u.aggregator.scanComplete = w.aggregator.scanComplete) : Beside w u where
  counters := hc
  scanner := hs
  workers := hw
  found := hf
  recorded := hr
  scannerPc := .inl (by rw [hp])
  workerPc i := .inl (by rw [hp])
  given i := by rw [hp]
  jobs := by rw [hp]
  failed h := by rwa [hp]
  complete := .inl hcomplete

theorem EmitMove.beside (h : EmitMove w m u m') {v : Observed} (hp : v.pipeline = u.pipeline)
    (hc : v.aggregator.counters = u.aggregator.counters) (hs : v.scanner = u.scanner)
    (hw : v.workers = u.workers) (hf : v.found = u.found) (hr : v.recorded = u.recorded)
    (hcomplete : v.aggregator.scanComplete = u.aggregator.scanComplete) : Beside w v := by
  cases h <;> exact .of hp hc hs hw hf hr hcomplete

/-- What a step is to the threads that record. -/
inductive Counts (c : Config) (x : Externals) (w u : Observed) : Prop
  | beside (h : Beside w u)
  | scanner {t : State} (hm : ScannerMove c w.pipeline t)
      (settled : ∀ e rest, w.pipeline.scanner = .emitting (.entry e :: rest) →
        w.scanner.settled = true)
      (recorded : ∀ e rest, w.pipeline.scanner = .emitting (.entry e :: rest) →
        t.scanner = .pushing (.entry e) rest → w.scanner = .recorded)
      (he : u = { w with pipeline := t, scanner := w.scanner.leave })
  | worker {t : State} (i : Nat) (hi : i < c.workerCount) (hm : WorkerMove c x w.pipeline i t)
      (settled : ∀ p e, (w.pipeline.workers i).pc = .finished p → p.value = .entry e →
        (w.workers i).settled = true)
      (recorded : ∀ p e, (w.pipeline.workers i).pc = .finished p → p.value = .entry e →
        (t.workers i).pc = .pushing p → w.workers i = .recorded)
      (he : u = { w with
        pipeline := t, workers := Function.update w.workers i (w.workers i).leave })
  | finds (e : ScannedEntry) (rest : List FileJob)
      (hp : w.pipeline.scanner = .emitting (.entry e :: rest)) (hr : w.scanner = .idle)
      (he : u = { w with
        scanner := .adding (discovery e) none e.sourcePath, found := w.found ++ [e] })
  | discovers (e : ScannedEntry) (rest : List FileJob) (r : Recorder) (b : ProgressAggregator)
      (hp : w.pipeline.scanner = .emitting (.entry e :: rest))
      (hr : Records w.aggregator w.scanner r b) (he : u = { w with scanner := r, aggregator := b })
  | scannerOverflows {t : State} (e : ScannedEntry) (rest : List FileJob) (f : Failure)
      (hp : w.pipeline.scanner = .emitting (.entry e :: rest)) (hm : ScannerMove c w.pipeline t)
      (hr : w.scanner.settled = false) (ht : t.scanner = .shutting f .record)
      (he : u = { w with pipeline := t })
  | begins (i : Nat) (p : ProcessedEntry) (e : ScannedEntry) (hi : i < c.workerCount)
      (hp : (w.pipeline.workers i).pc = .finished p) (hv : p.value = .entry e)
      (hr : w.workers i = .idle)
      (he : u = { w.setRecorder i (.adding (processing p e) none e.sourcePath) with
        recorded := w.recorded ++ [p] })
  | processes (i : Nat) (p : ProcessedEntry) (e : ScannedEntry) (r : Recorder)
      (b : ProgressAggregator) (hi : i < c.workerCount)
      (hp : (w.pipeline.workers i).pc = .finished p) (hv : p.value = .entry e)
      (hr : Records w.aggregator (w.workers i) r b)
      (he : u = { w.setRecorder i r with aggregator := b })
  | workerOverflows {t : State} (i : Nat) (p : ProcessedEntry) (e : ScannedEntry) (f : Failure)
      (hi : i < c.workerCount) (hp : (w.pipeline.workers i).pc = .finished p)
      (hv : p.value = .entry e) (hm : WorkerMove c x w.pipeline i t)
      (hr : (w.workers i).settled = false) (ht : (t.workers i).pc = .shutting f .record)
      (he : u = { w with pipeline := t })

theorem Beside.moved (hs : t.scanner = w.pipeline.scanner ∨
      w.pipeline.scanner = .waiting ∧ t.scanner = .starting)
    (hw : ∀ i, (t.workers i).pc = (w.pipeline.workers i).pc ∨
      (w.pipeline.workers i).pc = .waiting ∧ (t.workers i).pc = .starting)
    (hg : ∀ i, (t.workers i).given = (w.pipeline.workers i).given)
    (hj : t.jobs.items = w.pipeline.jobs.items) (hf : w.pipeline.failed → t.failed)
    (hu : u.pipeline = t) (hc : u.aggregator = w.aggregator) (hsc : u.scanner = w.scanner)
    (hwo : u.workers = w.workers) (hfo : u.found = w.found) (hre : u.recorded = w.recorded) :
    Beside w u := by
  subst hu
  exact ⟨by rw [hc], hsc, hwo, hfo, hre, hs, hw, hg, hj, hf, .inl (by rw [hc])⟩

theorem MainMove.others (hm : MainMove c s t) (hy : Young s) :
    (t.scanner = s.scanner ∨ s.scanner = .waiting ∧ t.scanner = .starting) ∧
      ∀ i, (t.workers i).pc = (s.workers i).pc ∨
        (s.workers i).pc = .waiting ∧ (t.workers i).pc = .starting := by
  cases hm with
  | creates n hp =>
    have hu := hy n (by rw [hp]; rfl)
    have hcreates := create_creates (c := c) (s := s) n
    generalize s.create c n = t at hcreates
    cases hcreates with
    | scanner k hk => exact ⟨.inr ⟨hu.scanner, rfl⟩, fun _ => .inl rfl⟩
    | worker i hi =>
      refine ⟨.inl rfl, fun j => ?_⟩
      by_cases hj : j = i
      · subst hj
        refine .inr ⟨hu.workers j (Nat.le_refl _), ?_⟩
        rw [State.moveWorker, setWorker_same]
        rfl
      · left
        rw [State.moveWorker, setWorker_other hj]
    | _ => exact ⟨.inl rfl, fun _ => .inl rfl⟩
  | cancels f stage hp =>
    have hu : Untouched s (s.shut f stage) := shut_untouched
    exact ⟨.inl hu.scanner, fun i => .inl (congrArg Worker.pc (congrFun hu.workers i))⟩
  | shuts f stage hp =>
    have hu : Untouched s (s.shut f stage) := shut_untouched
    exact ⟨.inl hu.scanner, fun i => .inl (congrArg Worker.pc (congrFun hu.workers i))⟩
  | _ => exact ⟨.inl rfl, fun _ => .inl rfl⟩

theorem MainMove.beside (hm : MainMove c w.pipeline t) (hp : Placed c w)
    (hf : w.pipeline.failed → t.failed) (hu : u.pipeline = t)
    (hc : u.aggregator = w.aggregator) (hsc : u.scanner = w.scanner) (hwo : u.workers = w.workers)
    (hfo : u.found = w.found) (hre : u.recorded = w.recorded) : Beside w u := by
  obtain ⟨hscanner, hworkers⟩ := hm.others hp.orderly.young
  exact .moved hscanner hworkers (hm.halts hp.orderly.young).given (hm.calm hp.orderly.young).jobs
    hf hu hc hsc hwo hfo hre

theorem OtherMove.beside (hm : OtherMove c w.pipeline t) (hf : w.pipeline.failed → t.failed)
    (hu : u.pipeline = t) (hc : u.aggregator = w.aggregator) (hsc : u.scanner = w.scanner)
    (hwo : u.workers = w.workers) (hfo : u.found = w.found) (hre : u.recorded = w.recorded) :
    Beside w u := by
  have hframe := hm.frame
  exact .moved (.inl hframe.scanner) (fun i => .inl (by rw [hframe.workers]))
    (fun i => by rw [hframe.workers]) hframe.jobItems hf hu hc hsc hwo hfo hre

theorem Happens.counts (hp : Placed c w) (hm : Happens c x w u) : Counts c x w u := by
  have hmain : ∀ {t}, MainMove c w.pipeline t → w.pipeline.failed → t.failed := fun hm =>
    Move.failed (x := x) (.main hm)
  have hother : ∀ {t}, OtherMove c w.pipeline t → w.pipeline.failed → t.failed := fun hm =>
    Move.failed (x := x) (.other hm)
  cases hm with
  | scanner hm settled recorded closing => exact .scanner hm settled recorded rfl
  | worker i hi hm settled recorded => exact .worker i hi hm settled recorded rfl
  | writer hm =>
    have hframe := hm.frame
    exact .beside (.moved (.inl hframe.scanner) (fun i => .inl (by rw [hframe.workers]))
      (fun i => by rw [hframe.workers]) hframe.jobItems (Move.failed (x := x) (.writer hm)) rfl rfl
      rfl rfl rfl rfl)
  | main hm => exact .beside (hm.beside hp (hmain hm) rfl rfl rfl rfl rfl rfl)
  | other hm => exact .beside (hm.beside (hother hm) rfl rfl rfl rfl rfl rfl)
  | finds e rest hpc hr => exact .finds e rest hpc hr rfl
  | discovers e rest r b hpc hr => exact .discovers e rest r b hpc hr rfl
  | scannerOverflows e rest f hpc hm hr ht => exact .scannerOverflows e rest f hpc hm hr ht rfl
  | begins i p e hi hpc hv hr => exact .begins i p e hi hpc hv hr rfl
  | processes i p e r b hi hpc hv hr => exact .processes i p e r b hi hpc hv hr rfl
  | workerOverflows i p e f hi hpc hv hm hr ht =>
    exact .workerOverflows i p e f hi hpc hv hm hr ht rfl
  | marks hpc hn =>
    exact .beside ⟨rfl, rfl, rfl, rfl, rfl, .inl rfl, fun _ => .inl rfl, fun _ => rfl, rfl, id,
      .inr ⟨hpc, rfl⟩⟩
  | callerEmits n m hd hm => exact .beside (hm.beside rfl rfl rfl rfl rfl rfl rfl)
  | callerThrows n d hd hc hn hm =>
    exact .beside (hm.beside hp (hmain hm) rfl rfl rfl rfl rfl rfl)
  | runnerEmits sets m hpc hr hm => exact .beside (hm.beside rfl rfl rfl rfl rfl rfl rfl)
  | runnerThrows d hpc he hn hm =>
    exact .beside (hm.beside (hother hm) rfl rfl rfl rfl rfl rfl)
  | _ => exact .beside (.of rfl rfl rfl rfl rfl rfl rfl)

/-- A thread that is in a call of the aggregator is at its place, or has failed in the call. -/
structure Seated (w : Observed) : Prop where
  scanner : w.scanner ≠ .idle → (∃ e rest, w.pipeline.scanner = .emitting (.entry e :: rest)) ∨
    (∃ f, w.pipeline.scanner = .shutting f .record) ∨
    w.pipeline.failed ∧ (w.pipeline.scanner.shuts = true ∨ w.pipeline.scanner = .done)
  workers : ∀ i, w.workers i ≠ .idle →
    (∃ p e, (w.pipeline.workers i).pc = .finished p ∧ p.value = .entry e) ∨
    (∃ f, (w.pipeline.workers i).pc = .shutting f .record) ∨
    w.pipeline.failed ∧
      ((w.pipeline.workers i).pc.shuts = true ∨ (w.pipeline.workers i).pc.gone = true)

theorem seated_start {v : Vault} {e : Bool} {now : Int} : Seated (.start c v e now) where
  scanner h := absurd rfl h
  workers i h := absurd rfl h

theorem Beside.seated (hb : Beside w u) (h : Seated w) : Seated u where
  scanner hr := by
    rw [hb.scanner] at hr
    have hold := h.scanner hr
    rcases hb.scannerPc with he | ⟨hw, -⟩
    · rw [he]
      exact hold.imp_right (Or.imp_right (And.imp_left hb.failed))
    · simp [hw, ScannerPc.shuts] at hold
  workers i hr := by
    rw [hb.workers] at hr
    have hold := h.workers i hr
    rcases hb.workerPc i with he | ⟨hw, -⟩
    · rw [he]
      exact hold.imp_right (Or.imp_right (And.imp_left hb.failed))
    · simp [hw, WorkerPc.shuts, WorkerPc.gone] at hold

/-- The scanner is behind its call when it goes on. -/
theorem Seated.scanner_leaves (h : Seated w) (hm : ScannerMove c w.pipeline t)
    (settled : ∀ e rest, w.pipeline.scanner = .emitting (.entry e :: rest) →
      w.scanner.settled = true) :
    w.scanner.leave = .idle ∨ t.failed ∧ (t.scanner.shuts = true ∨ t.scanner = .done) := by
  by_cases hidle : w.scanner = .idle
  · left
    rw [hidle]
    rfl
  · have hshut : ∀ f stage, w.pipeline.scanner = .shutting f stage →
        t.scanner.shuts = true ∨ t.scanner = .done := by
      intro f stage hpc
      rw [hm.from_shutting hpc]
      dsimp only
      rcases afterStage_cases ScannerPc.shutting .done f stage with he | ⟨next, he⟩ <;> rw [he]
      · exact .inr rfl
      · exact .inl rfl
    rcases h.scanner hidle with ⟨e, rest, hpc⟩ | ⟨f, hpc⟩ | ⟨hfailed, hshuts | hdone⟩
    · exact .inl (settled_leave (settled e rest hpc))
    · refine .inr ⟨?_, hshut f .record hpc⟩
      rw [hm.from_shutting hpc]
      exact shut_failed_record
    · right
      cases hpc : w.pipeline.scanner with
      | shutting f stage =>
        refine ⟨?_, hshut f stage hpc⟩
        rw [hm.from_shutting hpc]
        exact shut_failed hfailed
      | _ =>
        rw [hpc] at hshuts
        cases hshuts
    · have hover := hm.running.1
      rw [hdone] at hover
      cases hover

theorem WorkerMove.stays_gone {i : Nat} (hm : WorkerMove c x s i t)
    (hg : (s.workers i).pc.gone = true) : (t.workers i).pc.gone = true := by
  cases hm with
  | works pc hw =>
    cases hpc : (s.workers i).pc <;> rw [hpc] at hg hw <;> cases hg <;> cases hw with
    | fails _ t callback spool f hpc hf => cases hpc
    | dies _ e hpc => cases hpc
  | counts hp =>
    rw [State.moveWorker, setWorker_same, goto_pc]
    split <;> rfl
  | closes hp =>
    rw [State.moveWorker, setWorker_same]
    rfl
  | pops job jobs hp hq => simp [hp, WorkerPc.gone] at hg
  | confirms r after hp => simp [hp, WorkerPc.gone] at hg
  | finishes p hp => simp [hp, WorkerPc.gone] at hg
  | ended hp hq => simp [hp, WorkerPc.gone] at hg
  | stores r raw compressed object known objects hp hs => simp [hp, WorkerPc.gone] at hg
  | leaves r raw compressed known e hp hs => simp [hp, WorkerPc.gone] at hg
  | pushes p processed hp hq => simp [hp, WorkerPc.gone] at hg
  | refused p hp hq => simp [hp, WorkerPc.gone] at hg
  | oversized p hp hq => simp [hp, WorkerPc.gone] at hg
  | rejects p large e hp => simp [hp, WorkerPc.gone] at hg
  | shuts f stage hp => simp [hp, WorkerPc.gone] at hg

theorem Seated.worker_leaves {i : Nat} (h : Seated w) (hi : i < c.workerCount)
    (hm : WorkerMove c x w.pipeline i t)
    (settled : ∀ p e, (w.pipeline.workers i).pc = .finished p → p.value = .entry e →
      (w.workers i).settled = true) :
    (w.workers i).leave = .idle ∨
      t.failed ∧ ((t.workers i).pc.shuts = true ∨ (t.workers i).pc.gone = true) := by
  by_cases hidle : w.workers i = .idle
  · left
    rw [hidle]
    rfl
  · have hshut : ∀ f stage, (w.pipeline.workers i).pc = .shutting f stage →
        (t.workers i).pc.shuts = true ∨ (t.workers i).pc.gone = true := by
      intro f stage hpc
      rw [hm.from_shutting hpc, State.moveWorker, setWorker_same, goto_pc]
      rcases afterStage_cases WorkerPc.shutting .leaving f stage with he | ⟨next, he⟩ <;> rw [he]
      · exact .inr rfl
      · exact .inl rfl
    rcases h.workers i hidle with ⟨p, e, hpc, hv⟩ | ⟨f, hpc⟩ | ⟨hfailed, hshuts | hgone⟩
    · exact .inl (settled_leave (settled p e hpc hv))
    · refine .inr ⟨?_, hshut f .record hpc⟩
      rw [hm.from_shutting hpc]
      exact shut_failed_record
    · right
      cases hpc : (w.pipeline.workers i).pc with
      | shutting f stage => exact ⟨Move.failed (.worker i hi hm) hfailed, hshut f stage hpc⟩
      | _ =>
        rw [hpc] at hshuts
        cases hshuts
    · exact .inr ⟨Move.failed (.worker i hi hm) hfailed, .inr (hm.stays_gone hgone)⟩

theorem Counts.seated (hc : Counts c x w u) (h : Seated w) : Seated u := by
  cases hc with
  | beside hb => exact hb.seated h
  | @scanner t hm settled recorded he =>
    subst he
    have hframe := hm.frame
    have hfailed : w.pipeline.failed → t.failed := Move.failed (x := x) (.scanner hm)
    refine ⟨fun hr => ?_, fun i hr => ?_⟩
    · exact .inr (.inr ((h.scanner_leaves hm settled).resolve_left hr))
    · dsimp only
      rw [hframe.workers]
      exact (h.workers i hr).imp_right (Or.imp_right (And.imp_left hfailed))
  | @worker t i hi hm settled recorded he =>
    subst he
    have hframe := hm.frame
    have hfailed : w.pipeline.failed → t.failed := Move.failed (.worker i hi hm)
    refine ⟨fun hr => ?_, fun j hr => ?_⟩
    · dsimp only
      rw [hframe.scanner]
      exact (h.scanner hr).imp_right (Or.imp_right (And.imp_left hfailed))
    · dsimp only at hr ⊢
      by_cases hj : j = i
      · subst hj
        rw [Function.update_self] at hr
        exact .inr (.inr ((h.worker_leaves hi hm settled).resolve_left hr))
      · rw [Function.update_of_ne hj] at hr
        rw [hframe.others j hj]
        exact (h.workers j hr).imp_right (Or.imp_right (And.imp_left hfailed))
  | finds e rest hp hr he =>
    subst he
    exact ⟨fun _ => .inl ⟨e, rest, hp⟩, h.workers⟩
  | discovers e rest r b hp hr he =>
    subst he
    exact ⟨fun _ => .inl ⟨e, rest, hp⟩, h.workers⟩
  | @scannerOverflows t e rest f hp hm hr ht he =>
    subst he
    have hframe := hm.frame
    have hfailed : w.pipeline.failed → t.failed := Move.failed (x := x) (.scanner hm)
    refine ⟨fun _ => .inr (.inl ⟨f, ht⟩), fun i hr => ?_⟩
    dsimp only
    rw [hframe.workers]
    exact (h.workers i hr).imp_right (Or.imp_right (And.imp_left hfailed))
  | begins i p e hi hp hv hr he =>
    subst he
    refine ⟨h.scanner, fun j hr => ?_⟩
    by_cases hj : j = i
    · subst hj
      exact .inl ⟨p, e, hp, hv⟩
    · dsimp only [Observed.setRecorder] at hr
      rw [Function.update_of_ne hj] at hr
      exact h.workers j hr
  | processes i p e r b hi hp hv hr he =>
    subst he
    refine ⟨h.scanner, fun j hr => ?_⟩
    by_cases hj : j = i
    · subst hj
      exact .inl ⟨p, e, hp, hv⟩
    · dsimp only [Observed.setRecorder] at hr
      rw [Function.update_of_ne hj] at hr
      exact h.workers j hr
  | @workerOverflows t i p e f hi hp hv hm hr ht he =>
    subst he
    have hframe := hm.frame
    have hfailed : w.pipeline.failed → t.failed := Move.failed (.worker i hi hm)
    refine ⟨fun hr => ?_, fun j hr => ?_⟩
    · dsimp only
      rw [hframe.scanner]
      exact (h.scanner hr).imp_right (Or.imp_right (And.imp_left hfailed))
    · by_cases hj : j = i
      · subst hj
        exact .inr (.inl ⟨f, ht⟩)
      · dsimp only at hr ⊢
        rw [hframe.others j hj]
        exact (h.workers j hr).imp_right (Or.imp_right (And.imp_left hfailed))

/-- What all additions to a counter come to, done and to be done. -/
def Observed.credit (c : Config) (w : Observed) (k : Counter) : Nat :=
  w.aggregator.counters k + w.scanner.pending k +
    pooled c.workerCount (fun i => (w.workers i).pending k)

/-- The counters hold what has been found and recorded, up to the calls that are not through. -/
structure Balanced (c : Config) (w : Observed) : Prop where
  credit : ∀ k, w.credit c k = (w.found.map (fun e => amount (discovery e) k)).sum +
    (w.recorded.map (fun p => amount p.additions k)).sum
  scanner : ∀ k, k.discovers = false → w.scanner.pending k = 0
  workers : ∀ i k, k.discovers = true → (w.workers i).pending k = 0
  single : ∀ i, (w.workers i).pending .processedEntries ≤ 1
  bounded : w.aggregator.counters .processedEntries ≤ maximumByteCount

theorem balanced_start {v : Vault} {e : Bool} {now : Int} : Balanced c (.start c v e now) where
  credit k := by
    have hpool : pooled c.workerCount (fun _ => 0) = 0 := pooled_eq_zero.mpr fun _ _ => rfl
    change 0 + 0 + pooled c.workerCount (fun _ => 0) = 0
    omega
  scanner k _ := rfl
  workers i k _ := rfl
  single i := Nat.zero_le 1
  bounded := Nat.zero_le _

theorem Balanced.same (h : Balanced c w) (hc : u.aggregator.counters = w.aggregator.counters)
    (hs : ∀ k, u.scanner.pending k = w.scanner.pending k)
    (hw : ∀ i k, (u.workers i).pending k = (w.workers i).pending k) (hf : u.found = w.found)
    (hr : u.recorded = w.recorded) : Balanced c u where
  credit k := by
    have hold := h.credit k
    unfold Observed.credit at hold ⊢
    simp only [hc, hs, hw, hf, hr]
    exact hold
  scanner k hk := (hs k).trans (h.scanner k hk)
  workers i k hk := (hw i k).trans (h.workers i k hk)
  single i := (hw i .processedEntries).trans_le (h.single i)
  bounded := by
    rw [hc]
    exact h.bounded

theorem Counts.balanced (hc : Counts c x w u) (h : Balanced c w) : Balanced c u := by
  cases hc with
  | beside hb =>
    exact h.same hb.counters (fun k => by rw [hb.scanner]) (fun i k => by rw [hb.workers]) hb.found
      hb.recorded
  | scanner hm settled recorded he =>
    subst he
    exact h.same rfl (leave_pending _) (fun i k => rfl) rfl rfl
  | worker i hi hm settled recorded he =>
    subst he
    refine h.same rfl (fun k => rfl) (fun j k => ?_) rfl rfl
    by_cases hj : j = i
    · subst hj
      dsimp only
      rw [Function.update_self, leave_pending]
    · dsimp only
      rw [Function.update_of_ne hj]
  | finds e rest hp hr he =>
    subst he
    refine ⟨fun k => ?_, fun k hk => discovery_amount hk e, h.workers, h.single, h.bounded⟩
    have hold := h.credit k
    unfold Observed.credit at hold ⊢
    rw [hr] at hold
    dsimp only [Recorder.pending] at hold ⊢
    rw [List.map_append, List.sum_append, List.map_singleton, List.sum_singleton]
    omega
  | discovers e rest r b hp hr he =>
    subst he
    have hmoved := hr.pending
    refine ⟨fun k => ?_, fun k hk => ?_, h.workers, h.single, ?_⟩
    · have hold := h.credit k
      have hk := hmoved k
      unfold Observed.credit at hold ⊢
      dsimp only at hold ⊢
      omega
    · have hnone := h.scanner k hk
      have hless := hr.pending_le k
      dsimp only
      omega
    · have hnone := h.scanner .processedEntries rfl
      exact hr.bounded (by omega) h.bounded
  | scannerOverflows e rest f hp hm hr ht he =>
    subst he
    exact h.same rfl (fun k => rfl) (fun i k => rfl) rfl rfl
  | begins i p e hi hp hv hr he =>
    subst he
    have hother : ∀ j, j ≠ i → Function.update w.workers i
        (.adding (processing p e) none e.sourcePath) j = w.workers j := fun j hj =>
      Function.update_of_ne hj _ _
    have hadds := additions_entry hv
    refine ⟨fun k => ?_, h.scanner, fun j k hk => ?_, fun j => ?_, h.bounded⟩
    · have hold := h.credit k
      have hpool := pooled_change (n := c.workerCount) (i := i)
        (f := fun j => (w.workers j).pending k)
        (g := fun j => (Function.update w.workers i
          (.adding (processing p e) none e.sourcePath) j).pending k) hi
        (fun j hj => by rw [hother j hj])
      simp only [hr, Function.update_self, Recorder.pending] at hpool
      unfold Observed.credit at hold ⊢
      dsimp only [Observed.setRecorder]
      rw [List.map_append, List.sum_append, List.map_singleton, List.sum_singleton, hadds]
      simp only [Recorder.pending] at hold ⊢
      omega
    · by_cases hj : j = i
      · subst hj
        dsimp only [Observed.setRecorder]
        rw [Function.update_self]
        exact hadds ▸ additions_amount hk p
      · dsimp only [Observed.setRecorder]
        rw [hother j hj]
        exact h.workers j k hk
    · by_cases hj : j = i
      · subst hj
        dsimp only [Observed.setRecorder]
        rw [Function.update_self]
        exact hadds ▸ additions_one p
      · dsimp only [Observed.setRecorder]
        rw [hother j hj]
        exact h.single j
  | processes i p e r b hi hp hv hr he =>
    subst he
    have hother : ∀ j, j ≠ i → Function.update w.workers i r j = w.workers j := fun j hj =>
      Function.update_of_ne hj _ _
    have hmoved := hr.pending
    refine ⟨fun k => ?_, h.scanner, fun j k hk => ?_, fun j => ?_, ?_⟩
    · have hold := h.credit k
      have hk := hmoved k
      have hpool := pooled_change (n := c.workerCount) (i := i)
        (f := fun j => (w.workers j).pending k)
        (g := fun j => (Function.update w.workers i r j).pending k) hi
        (fun j hj => by rw [hother j hj])
      simp only [Function.update_self] at hpool
      unfold Observed.credit at hold ⊢
      dsimp only [Observed.setRecorder]
      omega
    · by_cases hj : j = i
      · subst hj
        have hnone := h.workers j k hk
        have hless := hr.pending_le k
        dsimp only [Observed.setRecorder]
        rw [Function.update_self]
        omega
      · dsimp only [Observed.setRecorder]
        rw [hother j hj]
        exact h.workers j k hk
    · by_cases hj : j = i
      · subst hj
        have hone := h.single j
        have hless := hr.pending_le .processedEntries
        dsimp only [Observed.setRecorder]
        rw [Function.update_self]
        omega
      · dsimp only [Observed.setRecorder]
        rw [hother j hj]
        exact h.single j
    · have hone := h.single i
      have hmax : 1 ≤ maximumByteCount := by decide
      exact hr.bounded (by omega) h.bounded
  | workerOverflows i p e f hi hp hv hm hr ht he =>
    subst he
    exact h.same rfl (fun k => rfl) (fun i k => rfl) rfl rfl

end LocalVault.Snapshot
