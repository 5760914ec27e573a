import LocalVault.Proofs.Rows

namespace LocalVault.Snapshot
open Library Repository

variable {c : Config} {x : Externals} {s t : State} {a : Act}

/-- What the scanner thread can do. -/
inductive ScannerMove (c : Config) (s : State) : State → Prop
  | starts (h : s.scanner = .starting) : ScannerMove c s { s with scanner := .emitting c.scan }
  | fails (f : Failure) (hf : f.primary = true ∨ s.stopRequested = true)
      (h : s.scanner = .starting ∨ ∃ rest, s.scanner = .emitting rest) :
      ScannerMove c s { s with scanner := .shutting f .record }
  | emits (job : FileJob) (rest : List FileJob) (h : s.scanner = .emitting (job :: rest)) :
      ScannerMove c s { s with scanner := .pushing job rest }
  | finishes (h : s.scanner = .emitting []) (he : c.scanError = none) :
      ScannerMove c s { s with scanner := .closing }
  | pushes (job : FileJob) (rest : List FileJob) (jobs : Queue FileJob)
      (h : s.scanner = .pushing job rest)
      (hp : s.jobs.push s.stopRequested job 0 = .accepted jobs) :
      ScannerMove c s { s with jobs, scanner := .emitting rest }
  | refused (job : FileJob) (rest : List FileJob) (h : s.scanner = .pushing job rest)
      (hp : s.jobs.push s.stopRequested job 0 = .refused ∨
        s.jobs.push s.stopRequested job 0 = .oversized) :
      ScannerMove c s { s with scanner := .refused job }
  | rejects (job : FileJob) (e : LocalVaultError) (h : s.scanner = .refused job) :
      ScannerMove c s { s with scanner := .shutting ⟨.localVault e, false⟩ .record }
  | closes (h : s.scanner = .closing) :
      ScannerMove c s { s with jobs := s.jobs.close, scanner := .done }
  | shuts (f : Failure) (stage : Stage) (h : s.scanner = .shutting f stage) :
      ScannerMove c s { s.shut f stage with scanner := afterStage .shutting .done f stage }

theorem stepScanner_move (h : stepScanner c s a = some t) : ScannerMove c s t := by
  unfold stepScanner at h
  split at h
  · cases h
    exact .starts ‹_›
  · cases h
    exact .fails _ (Or.inl rfl) (Or.inl ‹_›)
  · cases h
    exact .emits _ _ ‹_›
  · split at h
    · cases h
      exact .finishes ‹_› ‹_›
    · cases h
      exact .fails _ (Or.inl rfl) (Or.inr ⟨_, ‹_›⟩)
  · cases h
    exact .fails _ (Or.inl rfl) (Or.inr ⟨_, ‹_›⟩)
  · split at h
    · cases h
      exact .fails _ (Or.inr ‹_›) (Or.inr ⟨_, ‹_›⟩)
    · cases h
  · split at h
    · cases h
      exact .pushes _ _ _ ‹_› ‹_›
    · cases h
      exact .refused _ _ ‹_› (Or.inl ‹_›)
    · cases h
      exact .refused _ _ ‹_› (Or.inr ‹_›)
    · cases h
  · cases h
    exact .rejects _ _ ‹_›
  · cases h
    exact .closes ‹_›
  · cases h
    exact .shuts _ _ ‹_›
  · cases h

/-- The read attempt a worker is in: its file, whether an exception would leave
the chunk callback, and the references spooled so far. -/
def WorkerPc.attempt : WorkerPc → Option (Task × Bool × List ChunkReferenceRecord)
  | .measuring t | .opening t _ => some (t, false, [])
  | .reading r | .confirming r => some (r.task, false, r.spool)
  | .storing r _ | .compressing r _ | .publishing r _ _ => some (r.task, true, r.spool)
  | _ => none

/-- The places of the worker loop outside of a read attempt that can throw. -/
def WorkerPc.plain : WorkerPc → Bool
  | .starting | .popping | .beginning _ | .finished _ | .pushing _ => true
  | _ => false

/-- What a worker does on its own, between two looks at a queue or at the
objects. -/
inductive Works (c : Config) (x : Externals) (objects : Objects) (stop : Bool) (known : Known) :
    WorkerPc → WorkerPc → Prop
  | starts : Works c x objects stop known .starting .popping
  | begins (t : Task) : Works c x objects stop known (.beginning t) (.measuring t)
  | measures (t : Task) (before : PlatformFileMetadata) (hs : stop = false) :
      Works c x objects stop known (.measuring t) (.opening t before)
  | opens (t : Task) (before : PlatformFileMetadata) (hs : stop = false) :
      Works c x objects stop known (.opening t before) (.reading ⟨t, before, [], 0, 0, 0, 0, [], []⟩)
  | ends (r : Reading) (hs : stop = false) :
      Works c x objects stop known (.reading r) (.confirming r)
  | reads (r : Reading) (raw : Bytes) (hs : stop = false) (hne : raw ≠ [])
      (hsize : raw.length ≤ c.chunkSize) :
      Works c x objects stop known (.reading r) (.storing (r.deliver raw) raw)
  | finds (r : Reading) (raw : Bytes) (object : StoredObject) (hs : stop = false)
      (hf : findStored x c.chunkSize known objects raw = .ok (some object)) :
      Works c x objects stop known (.storing r raw) (appended c r raw object)
  | misses (r : Reading) (raw : Bytes) (hs : stop = false)
      (hf : findStored x c.chunkSize known objects raw = .ok none) :
      Works c x objects stop known (.storing r raw) (.compressing r raw)
  | compresses (r : Reading) (raw compressed : Bytes) (hs : stop = false)
      (hc : compressChunk x c.chunkSize raw = .ok compressed) :
      Works c x objects stop known (.compressing r raw) (.publishing r raw compressed)
  | fails (pc : WorkerPc) (t : Task) (callback : Bool) (spool : List ChunkReferenceRecord)
      (f : Failure) (hpc : pc.attempt = some (t, callback, spool))
      (hf : f.primary = true ∨ stop = true) :
      Works c x objects stop known pc (caught c t callback spool f)
  | dies (pc : WorkerPc) (e : Raised) (hpc : pc.plain = true) :
      Works c x objects stop known pc (.shutting ⟨e, true⟩ .record)

/-- What a worker thread can do. -/
inductive WorkerMove (c : Config) (x : Externals) (s : State) (i : Nat) : State → Prop
  | works (pc : WorkerPc) (h : Works c x s.vault.objects s.stopRequested (s.workers i).known
      (s.workers i).pc pc) : WorkerMove c x s i (s.moveWorker i pc)
  | pops (job : FileJob) (jobs : Queue FileJob) (h : (s.workers i).pc = .popping)
      (hp : s.jobs.pop s.stopRequested = .item job jobs) :
      WorkerMove c x s i ({ s with jobs }.setWorker i
        ({ s.workers i with taken := (s.workers i).taken ++ [job] }.goto (accept job)))
  | confirms (r : Reading) (after : PlatformFileMetadata) (h : (s.workers i).pc = .confirming r) :
      WorkerMove c x s i (s.setWorker i
        (((s.workers i).observed r after).goto (confirmed c x r after)))
  | finishes (p : ProcessedEntry) (h : (s.workers i).pc = .finished p) :
      WorkerMove c x s i (s.setWorker i
        ({ s.workers i with given := (s.workers i).given ++ [p] }.goto (.pushing p)))
  | ended (h : (s.workers i).pc = .popping) (hp : s.jobs.pop s.stopRequested = .ended) :
      WorkerMove c x s i (s.moveWorker i .leaving)
  | stores (r : Reading) (raw compressed : Bytes) (object : StoredObject) (known : Known)
      (objects : Objects) (h : (s.workers i).pc = .publishing r raw compressed)
      (hs : storeUnderStripe x c.chunkSize (s.workers i).known s.vault.objects raw compressed =
        .ok (object, known, objects)) :
      WorkerMove c x s i ({ s with vault := { s.vault with objects } }.setWorker i
        ({ s.workers i with known }.goto (appended c r raw object)))
  | leaves (r : Reading) (raw compressed : Bytes) (known : Known) (e : Raised)
      (h : (s.workers i).pc = .publishing r raw compressed)
      (hs : findExistingFile x c.chunkSize (s.workers i).known s.vault.objects (hashRaw x raw)
        (derivedPath (hashRaw x raw)) raw.length = .ok (none, known)) :
      WorkerMove c x s i ({ s with vault := { s.vault with
        objects := s.vault.objects.publish (derivedPath (hashRaw x raw)) compressed } }.moveWorker i
          (caught c r.task true r.spool ⟨e, true⟩))
  | pushes (p : ProcessedEntry) (processed : Queue ProcessedEntry)
      (h : (s.workers i).pc = .pushing p)
      (hp : s.processed.push s.stopRequested p (processedEntrySize c p) = .accepted processed) :
      WorkerMove c x s i ({ s with processed }.moveWorker i .popping)
  | refused (p : ProcessedEntry) (h : (s.workers i).pc = .pushing p)
      (hp : s.processed.push s.stopRequested p (processedEntrySize c p) = .refused) :
      WorkerMove c x s i (s.moveWorker i (.refused p false))
  | oversized (p : ProcessedEntry) (h : (s.workers i).pc = .pushing p)
      (hp : s.processed.push s.stopRequested p (processedEntrySize c p) = .oversized) :
      WorkerMove c x s i (s.moveWorker i (.refused p true))
  | rejects (p : ProcessedEntry) (large : Bool) (e : LocalVaultError)
      (h : (s.workers i).pc = .refused p large) :
      WorkerMove c x s i (s.moveWorker i
        (.shutting ⟨.localVault e, large && !s.stopRequested⟩ .record))
  | shuts (f : Failure) (stage : Stage) (h : (s.workers i).pc = .shutting f stage) :
      WorkerMove c x s i ((s.shut f stage).moveWorker i (afterStage .shutting .leaving f stage))
  | counts (h : (s.workers i).pc = .leaving) :
      WorkerMove c x s i ({ s with activeWorkers := s.activeWorkers - 1 }.moveWorker i
        (if s.activeWorkers = 1 then .closing else .done))
  | closes (h : (s.workers i).pc = .closing) :
      WorkerMove c x s i ({ s with processed := s.processed.close }.moveWorker i .done)

theorem raisedIn_works {pc pc' : WorkerPc} {e : Raised} {objects : Objects} {stop : Bool}
    {known : Known} (h : raisedIn c pc e = some pc') : Works c x objects stop known pc pc' := by
  unfold raisedIn at h
  split at h
  · cases h
    exact .dies _ e rfl
  · cases h
    exact .dies _ e rfl
  · cases h
    exact .dies _ e rfl
  · cases h
    exact .dies _ e rfl
  · cases h
    exact .dies _ e rfl
  · cases h
    exact .fails _ _ _ _ _ rfl (Or.inl rfl)
  · cases h
    exact .fails _ _ _ _ _ rfl (Or.inl rfl)
  · cases h
    exact .fails _ _ _ _ _ rfl (Or.inl rfl)
  · cases h
    exact .fails _ _ _ _ _ rfl (Or.inl rfl)
  · cases h
    exact .fails _ _ _ _ _ rfl (Or.inl rfl)
  · cases h
    exact .fails _ _ _ _ _ rfl (Or.inl rfl)
  · cases h
    exact .fails _ _ _ _ _ rfl (Or.inl rfl)
  · cases h

theorem stopped_works {pc : WorkerPc} {t : Task} {callback : Bool}
    {spool : List ChunkReferenceRecord} {objects : Objects} {stop : Bool} {known : Known}
    (hpc : pc.attempt = some (t, callback, spool)) (hs : stop = true) {e : LocalVaultError} :
    Works c x objects stop known pc (caught c t callback spool ⟨.localVault e, false⟩) :=
  .fails pc t callback spool _ hpc (Or.inr hs)

theorem stepWorker_move {i : Nat} (h : stepWorker c x s i a = some t) : WorkerMove c x s i t := by
  unfold stepWorker at h
  simp only at h
  split at h
  · -- an exception of the outside
    obtain ⟨pc, hpc, rfl⟩ := Option.map_eq_some_iff.mp h
    exact .works pc (raisedIn_works hpc)
  · have hpc : (s.workers i).pc = _ := ‹_›
    cases h
    exact .works _ (hpc ▸ .starts)
  · have hpc : (s.workers i).pc = _ := ‹_›
    split at h
    · cases h
      exact .pops _ _ hpc ‹_›
    · cases h
      exact .ended hpc ‹_›
    · cases h
  · have hpc : (s.workers i).pc = _ := ‹_›
    cases h
    exact .works _ (hpc ▸ .begins _)
  · have hpc : (s.workers i).pc = _ := ‹_›
    split at h
    · rename_i hstop
      cases h
      exact .works _ (stopped_works (by rw [hpc]; rfl) hstop)
    · rename_i hstop
      cases h
      exact .works _ (hpc ▸ .measures _ _ (by simpa using hstop))
  · have hpc : (s.workers i).pc = _ := ‹_›
    split at h
    · rename_i hstop
      cases h
      exact .works _ (stopped_works (by rw [hpc]; rfl) hstop)
    · rename_i hstop
      cases h
      exact .works _ (hpc ▸ .opens _ _ (by simpa using hstop))
  · have hpc : (s.workers i).pc = _ := ‹_›
    split at h
    · rename_i hstop
      cases h
      exact .works _ (stopped_works (by rw [hpc]; rfl) hstop)
    · rename_i hstop
      have hstop' : s.stopRequested = false := by simpa using hstop
      split at h
      · cases h
      · rename_i hsize
        split at h
        · cases h
          exact .works _ (hpc ▸ .ends _ hstop')
        · rename_i hne
          split at h
          · cases h
            exact .works _ (.fails _ _ _ _ _ (by rw [hpc]; rfl) (Or.inl rfl))
          · cases h
            exact .works _ (hpc ▸ .reads _ _ hstop' hne (Nat.not_lt.mp hsize))
  · have hpc : (s.workers i).pc = _ := ‹_›
    split at h
    · rename_i hstop
      cases h
      exact .works _ (stopped_works (by rw [hpc]; rfl) hstop)
    · rename_i hstop
      have hstop' : s.stopRequested = false := by simpa using hstop
      split at h
      · cases h
        exact .works _ (.fails _ _ _ _ _ (by rw [hpc]; rfl) (Or.inl rfl))
      · cases h
        exact .works _ (hpc ▸ .finds _ _ _ hstop' ‹_›)
      · cases h
        exact .works _ (hpc ▸ .misses _ _ hstop' ‹_›)
  · have hpc : (s.workers i).pc = _ := ‹_›
    split at h
    · rename_i hstop
      cases h
      exact .works _ (stopped_works (by rw [hpc]; rfl) hstop)
    · rename_i hstop
      have hstop' : s.stopRequested = false := by simpa using hstop
      split at h
      · cases h
        exact .works _ (.fails _ _ _ _ _ (by rw [hpc]; rfl) (Or.inl rfl))
      · cases h
        exact .works _ (hpc ▸ .compresses _ _ _ hstop' ‹_›)
  · have hpc : (s.workers i).pc = _ := ‹_›
    split at h
    · cases h
      exact .works _ (.fails _ _ _ _ _ (by rw [hpc]; rfl) (Or.inl rfl))
    · cases h
      exact .stores _ _ _ _ _ _ hpc ‹_›
  · have hpc : (s.workers i).pc = _ := ‹_›
    split at h
    · cases h
      exact .leaves _ _ _ _ _ hpc ‹_›
    · cases h
  · have hpc : (s.workers i).pc = _ := ‹_›
    cases h
    exact .confirms _ _ hpc
  · have hpc : (s.workers i).pc = _ := ‹_›
    cases h
    exact .finishes _ hpc
  · have hpc : (s.workers i).pc = _ := ‹_›
    split at h
    · cases h
      exact .pushes _ _ hpc ‹_›
    · cases h
      exact .refused _ hpc ‹_›
    · cases h
      exact .oversized _ hpc ‹_›
    · cases h
  · have hpc : (s.workers i).pc = _ := ‹_›
    cases h
    exact .rejects _ _ _ hpc
  · have hpc : (s.workers i).pc = _ := ‹_›
    cases h
    exact .shuts _ _ hpc
  · have hpc : (s.workers i).pc = _ := ‹_›
    cases h
    exact .counts hpc
  · have hpc : (s.workers i).pc = _ := ‹_›
    cases h
    exact .closes hpc
  · cases h

/-- The places of the writer loop that can throw. -/
def WriterPc.throws : WriterPc → Bool
  | .starting | .popping | .inserting _ | .referring _ _ _ | .committing _ => true
  | _ => false

/-- What the writer thread can do. -/
inductive WriterMove (c : Config) (s : State) : State → Prop
  | starts (h : s.writer = .starting) :
      WriterMove c s { s with batch := some ⟨s.vault.db, 0, 0, false⟩, writer := .popping }
  | fails (f : Failure) (totals : SnapshotTotals) (hf : f.primary = true ∨ s.stopRequested = true)
      (h : s.writer.throws = true) : WriterMove c s ({ s with totals }.writerFails f)
  | pops (p : ProcessedEntry) (processed : Queue ProcessedEntry) (h : s.writer = .popping)
      (hp : s.processed.pop s.stopRequested = .item p processed) :
      WriterMove c s { s with processed, writer := .inserting p }
  | ended (h : s.writer = .popping) (hp : s.processed.pop s.stopRequested = .ended) :
      WriterMove c s { s with writer := .ending }
  | warns (p : ProcessedEntry) (w : ScanWarning) (b b' : Batch) (pc : WriterPc)
      (h : s.writer = .inserting p) (hb : s.batch = some b) (hv : p.value = .warning w)
      (hdb : insertWarning c.snapshotId w b.db = (.ok (), b'.db)) (hr : b'.hasRecords = true)
      (hpc : pc = .popping ∨ pc = .committing false) :
      WriterMove c s { s with
        skippedEntries := s.skippedEntries ++ [⟨w.relativePath, w.message⟩]
        batch := some b', handled := s.handled ++ [p], writer := pc }
  | inserts (p : ProcessedEntry) (e : ScannedEntry) (b b' : Batch) (id : Int) (pc : WriterPc)
      (h : s.writer = .inserting p) (hb : s.batch = some b) (hv : p.value = .entry e)
      (ht : e.type ≠ .regularFile) (hdb : insertEntry c.snapshotId e b.db = (.ok id, b'.db))
      (hr : b'.hasRecords = true) (hpc : pc = .popping ∨ pc = .committing false) :
      WriterMove c s { s with
        totals := countEntry s.totals e.type
        batch := some b', handled := s.handled ++ [p], writer := pc }
  | begins (p : ProcessedEntry) (e : ScannedEntry) (b : Batch) (id : Int) (db : Database)
      (references : List ChunkReferenceRecord) (h : s.writer = .inserting p)
      (hb : s.batch = some b) (hv : p.value = .entry e) (ht : e.type = .regularFile)
      (hdb : insertEntry c.snapshotId e b.db = (.ok id, db))
      (hrefs : p.chunkReferences = some references)
      (hmax : s.totals.logicalSize + e.logicalSize ≤ maximumByteCount) :
      WriterMove c s { s with
        totals := { countEntry s.totals .regularFile with
          logicalSize := s.totals.logicalSize + e.logicalSize }
        batch := some { b with db }, writer := .referring p id references }
  | refers (p : ProcessedEntry) (id : Int) (ref : ChunkReferenceRecord)
      (rest : List ChunkReferenceRecord) (b : Batch) (db : Database) (totals : SnapshotTotals)
      (now : Int) (h : s.writer = .referring p id (ref :: rest)) (hb : s.batch = some b)
      (hdb : recordChunk c s.vault.objects id ref now b.db = (.ok (), db))
      (ht : countChunk s.totals ref = .ok totals) :
      WriterMove c s { s with
        totals, batch := some { b with db }, writer := .referring p id rest }
  | hashes (p : ProcessedEntry) (id : Int) (b b' : Batch) (pc : WriterPc)
      (h : s.writer = .referring p id []) (hb : s.batch = some b)
      (hdb : setRegularFileHash id p.fileHashHex b.db = (.ok (), b'.db)) (hr : b'.hasRecords = true)
      (hpc : pc = .popping ∨ pc = .committing false) :
      WriterMove c s { s with batch := some b', handled := s.handled ++ [p], writer := pc }
  | skips (last : Bool) (b : Batch) (h : s.writer = .committing last) (hb : s.batch = some b)
      (hr : b.hasRecords = false) :
      WriterMove c s { s with
        batch := if last then none else some ⟨b.db, 0, 0, false⟩
        writer := if last then .done else .popping }
  | commits (last : Bool) (b : Batch) (h : s.writer = .committing last) (hb : s.batch = some b)
      (hr : b.hasRecords = true) (hs : s.stopRequested = false) :
      WriterMove c s { s with
        vault := { s.vault with db := b.db }
        batch := if last then none else some ⟨b.db, 0, 0, false⟩
        writer := if last then .done else .popping }
  | breaks (b : Batch) (e : Raised) (hb : s.batch = some b) (hr : b.hasRecords = true)
      (last : Bool) (h : s.writer = .committing last) :
      WriterMove c s ({ s with vault := { s.vault with db := b.db } }.writerFails ⟨e, true⟩)
  | abandons (h : s.writer = .ending) (hs : s.stopRequested = true) :
      WriterMove c s { s with batch := none, writer := .done }
  | concludes (h : s.writer = .ending) (hs : s.stopRequested = false) :
      WriterMove c s { s with writer := .committing true }
  | shuts (f : Failure) (stage : Stage) (h : s.writer = .shutting f stage) :
      WriterMove c s { s.shut f stage with writer := afterStage .shutting .done f stage }

theorem addBytes_ok {total value sum : Nat} {counter : String}
    (h : addBytes total value counter = .ok sum) : sum = total + value := by
  unfold addBytes at h
  split at h
  · cases h
  · cases h
    rfl

/-- A sum that was not refused does not overflow. -/
theorem addBytes_max {total value sum : Nat} {counter : String} (hv : value ≤ maximumByteCount)
    (h : addBytes total value counter = .ok sum) : sum ≤ maximumByteCount := by
  unfold addBytes at h
  split at h
  · cases h
  · cases h
    omega

theorem recorded_eq (b : Batch) (db : Database) (bytes : Nat) (p : ProcessedEntry) :
    ∃ b' pc, b'.db = db ∧ b'.hasRecords = true ∧ (pc = .popping ∨ pc = .committing false) ∧
      s.recorded c b db bytes p =
        { s with batch := some b', handled := s.handled ++ [p], writer := pc } := by
  refine ⟨⟨db, b.recordCount + 1, bytes, true⟩, _, rfl, rfl, ?_, rfl⟩
  split
  · exact Or.inr rfl
  · exact Or.inl rfl

/-- An entry ends with an overflow, or it is counted in its batch. -/
theorem recordedEntry_cases (b : Batch) (db : Database) (size : Nat) (p : ProcessedEntry) :
    (∃ e, s.recordedEntry c b db size p = s.writerFails (.raised e)) ∨
      ∃ b' pc, b'.db = db ∧ b'.hasRecords = true ∧ (pc = .popping ∨ pc = .committing false) ∧
        s.recordedEntry c b db size p =
          { s with batch := some b', handled := s.handled ++ [p], writer := pc } := by
  unfold State.recordedEntry
  cases addBytes b.logicalBytes size "metadata batch logical size" with
  | error e => exact Or.inl ⟨e, rfl⟩
  | ok bytes => exact Or.inr (recorded_eq b db bytes p)

theorem inserted_move {p : ProcessedEntry} {b : Batch} {db : Database} {id : Int} {e : ScannedEntry}
    (h : s.writer = .inserting p) (hb : s.batch = some b) (hv : p.value = .entry e)
    (hdb : insertEntry c.snapshotId e b.db = (.ok id, db)) :
    WriterMove c s (s.inserted c b db id e p) := by
  have hthrows : s.writer.throws = true := by rw [h]; rfl
  unfold State.inserted
  simp only
  split
  · rename_i ht
    let s' : State := { s with totals := countEntry s.totals e.type }
    have hcases := recordedEntry_cases (s := s') (c := c) b db e.logicalSize p
    rcases hcases with ⟨error, he⟩ | ⟨b', pc, rfl, hr, hpc, he⟩
    · rw [he]
      exact .fails _ _ (Or.inl rfl) hthrows
    · rw [he]
      exact .inserts p e b b' id pc h hb hv ht hdb hr hpc
  · rename_i ht
    have ht' : e.type = .regularFile := by simpa using ht
    split
    · exact .fails _ s.totals (Or.inl rfl) hthrows
    · rename_i size hsize
      split
      · exact .fails _ s.totals (Or.inl rfl) hthrows
      · rename_i references hrefs
        have hsum := addBytes_ok hsize
        have hmax : size ≤ maximumByteCount := by
          refine addBytes_max ((insertEntry_returns hdb).1.trans ?_) hsize
          decide
        rw [ht'] at hsum ⊢
        subst hsum
        exact .begins p e b id db references h hb hv ht' hdb hrefs hmax

theorem stepWriter_move (h : stepWriter c s a = some t) : WriterMove c s t := by
  unfold stepWriter at h
  split at h
  · cases h
    exact .starts ‹_›
  · cases h
    exact .fails _ s.totals (Or.inl rfl) (by simp_all [WriterPc.throws])
  · split at h
    · cases h
      exact .pops _ _ ‹_› ‹_›
    · cases h
      exact .ended ‹_› ‹_›
    · cases h
  · rename_i p b hpc hb
    have hthrows : s.writer.throws = true := by rw [hpc]; rfl
    split at h
    · rename_i w hv
      split at h
      · cases h
        exact .fails _ s.totals (Or.inl rfl) hthrows
      · rename_i db hdb
        cases h
        obtain ⟨b', pc, rfl, hr, hpc', he⟩ := recorded_eq (c := c) (s := { s with
          skippedEntries := s.skippedEntries ++ [⟨w.relativePath, w.message⟩] }) b db b.logicalBytes p
        rw [he]
        exact .warns p w b b' pc hpc hb hv hdb hr hpc'
    · rename_i e hv
      split at h
      · rename_i hstop
        cases h
        exact .fails _ s.totals (Or.inr hstop) hthrows
      · split at h
        · cases h
          exact .fails _ s.totals (Or.inl rfl) hthrows
        · cases h
          exact inserted_move hpc hb hv ‹_›
  · rename_i p id ref rest b now hpc hb
    have hthrows : s.writer.throws = true := by rw [hpc]; rfl
    split at h
    · rename_i hstop
      cases h
      exact .fails _ s.totals (Or.inr hstop) hthrows
    · split at h
      · cases h
        exact .fails _ s.totals (Or.inl rfl) hthrows
      · split at h
        · cases h
          exact .fails _ s.totals (Or.inl rfl) hthrows
        · cases h
          exact .refers p id ref rest b _ _ now hpc hb ‹_› ‹_›
  · rename_i p id b hpc hb
    have hthrows : s.writer.throws = true := by rw [hpc]; rfl
    split at h
    · cases h
      exact .fails _ s.totals (Or.inl rfl) hthrows
    · rename_i db hdb
      cases h
      rcases recordedEntry_cases (c := c) (s := s) b db _ p with ⟨e, he⟩ | ⟨b', pc, rfl, hr, hpc', he⟩
      · rw [he]
        exact .fails _ s.totals (Or.inl rfl) hthrows
      · rw [he]
        exact .hashes p id b b' pc hpc hb hdb hr hpc'
  · rename_i last b hpc hb
    have hthrows : s.writer.throws = true := by rw [hpc]; rfl
    simp only at h
    split at h
    · rename_i hr
      cases h
      exact .skips last b hpc hb (by simpa using hr)
    · rename_i hr
      split at h
      · rename_i hstop
        cases h
        exact .fails _ s.totals (Or.inr hstop) hthrows
      · rename_i hstop
        cases h
        exact .commits last b hpc hb (by simpa using hr) (by simpa using hstop)
  · rename_i last b e hpc hb
    split at h
    · cases h
    · rename_i hr
      cases h
      exact .breaks b e hb (by simp_all) last hpc
  · split at h
    · cases h
      exact .abandons ‹_› ‹_›
    · rename_i hstop
      cases h
      exact .concludes ‹_› (by simpa using hstop)
  · cases h
    exact .fails _ s.totals (Or.inl rfl) (by simp_all [WriterPc.throws])
  · cases h
    exact .fails _ s.totals (Or.inl rfl) (by simp_all [WriterPc.throws])
  · cases h
    exact .fails _ s.totals (Or.inl rfl) (by simp_all [WriterPc.throws])
  · cases h
    exact .fails _ s.totals (Or.inl rfl) (by simp_all [WriterPc.throws])
  · cases h
    exact .shuts _ _ ‹_›
  · cases h

/-- The places of the calling thread, outside of the pipeline, that can throw. -/
def MainPc.throws : MainPc → Bool
  | .checking | .announcing | .checkingAgain | .registering | .concluding | .finalizing
  | .checkingLast | .publishing => true
  | _ => false

/-- Steps of the calling thread that change nothing but its place. -/
inductive Advances (c : Config) (s : State) : MainPc → MainPc → Prop
  | checks (h : s.externalStop = false) : Advances c s .checking .announcing
  | announces : Advances c s .announcing .checkingAgain
  | checksAgain (h : s.externalStop = false) : Advances c s .checkingAgain .registering
  | cancels (h : s.externalStop = true) :
      Advances c s .registering (.cancelling (.raised (snapshotCancelled c.source)) .record)
  | skips (h : s.stopRequested = true) : Advances c s .deciding .joiningScanner
  | decides (h : s.stopRequested = false) : Advances c s .deciding (.creating 0)
  | fails (created : Nat) (e : Raised) :
      Advances c s (.creating created) (.shutting ⟨e, true⟩ .record)
  | joinsScanner (h : s.scanner.over = true) : Advances c s .joiningScanner .joiningWorkers
  | joinsWorkers (h : ∀ i < c.workerCount, (s.workers i).pc.over = true) :
      Advances c s .joiningWorkers .joiningWriter
  | joinsProgress (h : s.progress.over = true) : Advances c s .joiningProgress .unregistering
  | rethrows (e : Raised) (h : s.firstError = some e) :
      Advances c s .rethrowing (.failing ⟨e, true⟩)
  | concludes (h : s.firstError = none) : Advances c s .rethrowing .concluding
  | finalizes : Advances c s .finalizing .checkingLast
  | checksLast (h : s.externalStop = false) : Advances c s .checkingLast .publishing
  | throws (pc : MainPc) (f : Failure) (h : pc.throws = true) : Advances c s pc (.failing f)

/-- What the thread that called `create_snapshot` can do. -/
inductive MainMove (c : Config) (s : State) : State → Prop
  | advances (pc : MainPc) (h : Advances c s s.main pc) : MainMove c s { s with main := pc }
  | registers (h : s.main = .registering) (he : s.externalStop = false) :
      MainMove c s { s with registered := true, main := .deciding }
  | cancels (f : Failure) (stage : Stage) (h : s.main = .cancelling f stage) :
      MainMove c s { s.shut f stage with main := afterStage .cancelling .deciding f stage }
  | creates (created : Nat) (h : s.main = .creating created) : MainMove c s (s.create c created)
  | shuts (f : Failure) (stage : Stage) (h : s.main = .shutting f stage) :
      MainMove c s { s.shut f stage with main := afterStage .shutting .joiningScanner f stage }
  | joinsWriter (h : s.main = .joiningWriter) (ho : s.writer.over = true) :
      MainMove c s { s with progressFinished := true, main := .joiningProgress }
  | unregisters (h : s.main = .unregistering) (ho : s.canceller.over = true) :
      MainMove c s { s with registered := false, main := .rethrowing }
  | times (now : Int) (h : s.main = .concluding) :
      MainMove c s { s with
        totals := { s.totals with durationMs := (now - c.startedAtNs).tdiv 1000000 }
        main := .finalizing }
  | publishes (now : Int) (db : Database) (h : s.main = .publishing)
      (hdb : markSnapshotComplete c.snapshotId s.totals now s.vault.db = (.ok (), db)) :
      MainMove c s { s with vault := { s.vault with db }, main := .published }

theorem checkExternal_move {pc : MainPc} (ht : s.main.throws = true)
    (hpc : s.externalStop = false → Advances c s s.main pc) :
    MainMove c s (s.checkExternal c pc) := by
  unfold State.checkExternal
  split
  · exact .advances _ (.throws _ _ ht)
  · rename_i he
    exact .advances _ (hpc (by simpa using he))

theorem stepMain_move (h : stepMain c s a = some t) : MainMove c s t := by
  unfold stepMain at h
  split at h
  · rename_i hpc
    cases h
    exact checkExternal_move (by rw [hpc]; rfl) (fun he => hpc ▸ .checks he)
  · rename_i hpc
    cases h
    exact .advances _ (hpc ▸ .announces)
  · rename_i hpc
    cases h
    exact checkExternal_move (by rw [hpc]; rfl) (fun he => hpc ▸ .checksAgain he)
  · rename_i hpc
    split at h
    · rename_i he
      cases h
      exact .advances _ (hpc ▸ .cancels he)
    · rename_i he
      cases h
      exact .registers hpc (by simpa using he)
  · rename_i hpc
    cases h
    exact .cancels _ _ hpc
  · rename_i hpc
    split at h
    · rename_i hs
      cases h
      exact .advances _ (hpc ▸ .skips hs)
    · rename_i hs
      cases h
      exact .advances _ (hpc ▸ .decides (by simpa using hs))
  · rename_i hpc
    cases h
    exact .creates _ hpc
  · rename_i hpc
    cases h
    exact .advances _ (hpc ▸ .fails _ _)
  · rename_i hpc
    cases h
    exact .shuts _ _ hpc
  · rename_i hpc
    split at h
    · rename_i ho
      cases h
      exact .advances _ (hpc ▸ .joinsScanner ho)
    · cases h
  · rename_i hpc
    split at h
    · rename_i ho
      cases h
      exact .advances _ (hpc ▸ .joinsWorkers (by simpa using ho))
    · cases h
  · rename_i hpc
    split at h
    · rename_i ho
      cases h
      exact .joinsWriter hpc ho
    · cases h
  · rename_i hpc
    split at h
    · rename_i ho
      cases h
      exact .advances _ (hpc ▸ .joinsProgress ho)
    · cases h
  · rename_i hpc
    split at h
    · rename_i ho
      cases h
      exact .unregisters hpc ho
    · cases h
  · rename_i hpc
    split at h
    · rename_i he
      cases h
      exact .advances _ (hpc ▸ .rethrows _ he)
    · rename_i he
      cases h
      exact .advances _ (hpc ▸ .concludes he)
  · rename_i hpc
    split at h
    · cases h
      exact .advances _ (.throws _ _ (by rw [hpc]; rfl))
    · cases h
      exact .times _ hpc
  · rename_i hpc
    cases h
    exact .advances _ (hpc ▸ .finalizes)
  · rename_i hpc
    cases h
    exact checkExternal_move (by rw [hpc]; rfl) (fun he => hpc ▸ .checksLast he)
  · rename_i hpc
    split at h
    · cases h
      exact .advances _ (.throws _ _ (by rw [hpc]; rfl))
    · cases h
      exact .publishes _ _ hpc ‹_›
  · rename_i hpc
    cases h
    exact .advances _ (.throws _ _ (by rw [hpc]; rfl))
  · rename_i hpc
    cases h
    exact .advances _ (.throws _ _ (by rw [hpc]; rfl))
  · rename_i hpc
    cases h
    exact .advances _ (.throws _ _ (by rw [hpc]; rfl))
  · rename_i hpc
    cases h
    exact .advances _ (.throws _ _ (by rw [hpc]; rfl))
  · cases h

/-- What the progress thread, the thread that cancels and the caller's stop
source can do. -/
inductive OtherMove (c : Config) (s : State) : State → Prop
  | progressFails (e : Raised) (h : s.progress = .running) :
      OtherMove c s { s with progress := .shutting ⟨e, true⟩ .record }
  | progressEnds (h : s.progress = .running) : OtherMove c s { s with progress := .done }
  | progressShuts (f : Failure) (stage : Stage) (h : s.progress = .shutting f stage) :
      OtherMove c s { s.shut f stage with progress := afterStage .shutting .done f stage }
  | cancellerShuts (f : Failure) (stage : Stage) (h : s.canceller = .shutting f stage) :
      OtherMove c s { s.shut f stage with canceller := afterStage .shutting .done f stage }
  | requests (he : s.externalStop = false) (hr : s.registered = true) :
      OtherMove c s { s with
        externalStop := true
        canceller := .shutting (.raised (snapshotCancelled c.source)) .record }
  | notes (he : s.externalStop = false) (hr : s.registered = false) :
      OtherMove c s { s with externalStop := true }

/-- What can happen in a running `create_snapshot`. -/
inductive Move (c : Config) (x : Externals) (s : State) : State → Prop
  | scanner {t : State} (h : ScannerMove c s t) : Move c x s t
  | worker {t : State} (i : Nat) (hi : i < c.workerCount) (h : WorkerMove c x s i t) : Move c x s t
  | writer {t : State} (h : WriterMove c s t) : Move c x s t
  | main {t : State} (h : MainMove c s t) : Move c x s t
  | other {t : State} (h : OtherMove c s t) : Move c x s t

theorem stepProgress_move (h : stepProgress s a = some t) : OtherMove c s t := by
  unfold stepProgress at h
  split at h
  · cases h
    exact .progressFails _ ‹_›
  · split at h
    · cases h
      exact .progressEnds ‹_›
    · cases h
  · cases h
    exact .progressShuts _ _ ‹_›
  · cases h

theorem stepCanceller_move (h : stepCanceller s = some t) : OtherMove c s t := by
  unfold stepCanceller at h
  split at h
  · cases h
    exact .cancellerShuts _ _ ‹_›
  · cases h

theorem stepRequest_move (h : stepRequest c s = some t) : OtherMove c s t := by
  unfold stepRequest at h
  split at h
  · cases h
  · rename_i he
    split at h
    · rename_i hr
      cases h
      exact .requests (by simpa using he) hr
    · rename_i hr
      cases h
      exact .notes (by simpa using he) (by simpa using hr)

theorem step_move {l : Label} (h : step c x s l = some t) : Move c x s t := by
  cases l with
  | scanner a => exact .scanner (stepScanner_move h)
  | worker i a =>
    simp only [step] at h
    split at h
    · exact .worker i ‹_› (stepWorker_move h)
    · cases h
  | writer a => exact .writer (stepWriter_move h)
  | main a => exact .main (stepMain_move h)
  | progress a => exact .other (stepProgress_move h)
  | canceller => exact .other (stepCanceller_move h)
  | requestExternalStop => exact .other (stepRequest_move h)

/-- The rule of invariants: what the start has and every move keeps holds along
a schedule. -/
theorem run_invariant {P : State → Prop} (hstep : ∀ s t, P s → Move c x s t → P t) {ls : List Label}
    (hs : P s) (h : run c x s ls = some t) : P t := by
  induction ls generalizing s with
  | nil =>
    cases h
    exact hs
  | cons l ls ih =>
    obtain ⟨u, hu, ht⟩ := Option.bind_eq_some_iff.mp h
    exact ih (hstep s u hs (step_move hu)) ht

end LocalVault.Snapshot
