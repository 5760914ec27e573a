import LocalVault.Proofs.Accounting
import LocalVault.Proofs.Batches

namespace LocalVault
open Library

/-- The file entries of a snapshot. -/
def Database.filesOf (db : Database) (id : SnapshotId) : List EntryRow :=
  (db.entriesOf id).filter (fun e => e.entryType == .regularFile)

/-- The chunk references of the entries of a snapshot. -/
def Database.referencesOf (db : Database) (id : SnapshotId) : List EntryChunkRow :=
  db.entryChunks.filter (fun c => (db.entriesOf id).any (fun e => e.id == c.entryId))

/-- How many chunk references each file entry has, in the order of the entries. -/
def Database.chunkCounts (db : Database) (id : SnapshotId) : List Nat :=
  (db.filesOf id).map (fun e => (db.entryChunksOf e.id).length)

/-- The rows that the counters have handed out keys for. -/
structure Database.Numbered (db : Database) : Prop where
  entries : ∀ e ∈ db.entries, e.id ≤ db.lastEntryId
  references : ∀ c ∈ db.entryChunks, c.entryId ≤ db.lastEntryId

namespace Snapshot
open Repository

variable {c : Config} {x : Externals} {s t : State} {v : Vault} {objects : Objects} {id : SnapshotId}
  {db mid db' : Database} {row : EntryRow} {rows : List EntryChunkRow} {type : EntryType}

/-- A new entry with its chunk references; file hashes may have been set. -/
structure EntryAdded (db db' : Database) (row : EntryRow) (rows : List EntryChunkRow) : Prop where
  key : row.id = db.lastEntryId + 1
  last : db'.lastEntryId = db.lastEntryId + 1
  entries : ∃ hash : EntryRow → Option Bytes,
    db'.entries = (db.entries ++ [row]).map (fun e => { e with fileHash := hash e })
  entryChunks : db'.entryChunks = db.entryChunks ++ rows
  owner : ∀ r ∈ rows, r.entryId = row.id
  warnings : db'.warnings = db.warnings

namespace EntryAdded

theorem entriesOf (h : EntryAdded db db' row rows) (hid : row.snapshotId = id) :
    ∃ hash : EntryRow → Option Bytes,
      db'.entriesOf id = (db.entriesOf id ++ [row]).map (fun e => { e with fileHash := hash e }) := by
  obtain ⟨hash, hentries⟩ := h.entries
  refine ⟨hash, ?_⟩
  unfold Database.entriesOf
  rw [hentries, List.filter_map]
  congr 1
  change (db.entries ++ [row]).filter (fun e => e.snapshotId == id) = _
  rw [List.filter_append, List.filter_cons_of_pos (by simpa using hid)]
  rfl

theorem ofType (h : EntryAdded db db' row rows) (hid : row.snapshotId = id) (type : EntryType) :
    ∃ hash : EntryRow → Option Bytes,
      (db'.entriesOf id).filter (fun e => e.entryType == type) =
        ((db.entriesOf id).filter (fun e => e.entryType == type) ++
          if row.entryType = type then [row] else []).map (fun e => { e with fileHash := hash e }) := by
  obtain ⟨hash, hentries⟩ := h.entriesOf hid
  refine ⟨hash, ?_⟩
  rw [hentries, List.filter_map]
  congr 1
  change (db.entriesOf id ++ [row]).filter (fun e => e.entryType == type) = _
  rw [List.filter_append, List.filter_singleton]
  simp

theorem count (h : EntryAdded db db' row rows) (hid : row.snapshotId = id) (type : EntryType) :
    countEntries db' id type = countEntries db id type + if row.entryType = type then 1 else 0 := by
  obtain ⟨hash, htype⟩ := h.ofType hid type
  unfold countEntries
  rw [htype, List.length_map, List.length_append]
  split <;> rfl

theorem size (h : EntryAdded db db' row rows) (hid : row.snapshotId = id) :
    sumLogicalSize db' id =
      sumLogicalSize db id + if row.entryType = .regularFile then row.logicalSize else 0 := by
  obtain ⟨hash, htype⟩ := h.ofType hid .regularFile
  unfold sumLogicalSize
  rw [htype, List.map_map, List.map_append, List.sum_append]
  congr 1
  split <;> simp

theorem numbered (h : EntryAdded db db' row rows) (hn : db.Numbered) : db'.Numbered := by
  obtain ⟨hash, hentries⟩ := h.entries
  have hkey := h.key
  refine ⟨?_, ?_⟩
  · rw [hentries, h.last]
    intro e he
    obtain ⟨d, hd, rfl⟩ := List.mem_map.mp he
    rcases List.mem_append.mp hd with hd | hd
    · have hle := hn.entries d hd
      change d.id ≤ _
      omega
    · rw [List.mem_singleton.mp hd]
      change row.id ≤ _
      omega
  · rw [h.entryChunks, h.last]
    intro r hr
    rcases List.mem_append.mp hr with hr | hr
    · have hle := hn.references r hr
      omega
    · rw [h.owner r hr]
      omega

/-- The references of an older entry are what they were. -/
theorem chunksOf_old (h : EntryAdded db db' row rows) {e : EntryRow} (he : e.id ≠ row.id) :
    db'.entryChunksOf e.id = db.entryChunksOf e.id := by
  unfold Database.entryChunksOf
  rw [h.entryChunks, List.filter_append]
  have hnone : rows.filter (fun r => r.entryId == e.id) = [] := by
    rw [List.filter_eq_nil_iff]
    intro r hr hre
    exact he ((beq_iff_eq.mp hre).symm.trans (h.owner r hr))
  rw [hnone, List.append_nil]

theorem chunksOf_new (h : EntryAdded db db' row rows) (hn : db.Numbered) :
    db'.entryChunksOf row.id = rows := by
  unfold Database.entryChunksOf
  rw [h.entryChunks, List.filter_append]
  have hkey := h.key
  have hnone : db.entryChunks.filter (fun r => r.entryId == row.id) = [] := by
    rw [List.filter_eq_nil_iff]
    intro r hr hre
    have hle := hn.references r hr
    rw [beq_iff_eq.mp hre] at hle
    omega
  have hall : rows.filter (fun r => r.entryId == row.id) = rows :=
    List.filter_eq_self.mpr (fun r hr => by simpa using h.owner r hr)
  rw [hnone, hall, List.nil_append]

theorem chunkCounts (h : EntryAdded db db' row rows) (hn : db.Numbered) (hid : row.snapshotId = id) :
    db'.chunkCounts id =
      db.chunkCounts id ++ if row.entryType = .regularFile then [rows.length] else [] := by
  obtain ⟨hash, htype⟩ := h.ofType hid .regularFile
  have hkey := h.key
  unfold Database.chunkCounts Database.filesOf
  rw [htype, List.map_map, List.map_append]
  congr 1
  · apply List.map_congr_left
    intro e he
    have hle := hn.entries e (List.mem_of_mem_filter (List.mem_of_mem_filter he))
    have hne : e.id ≠ row.id := by omega
    exact congrArg List.length (h.chunksOf_old hne)
  · split
    · exact congrArg (fun n => [List.length n]) (h.chunksOf_new hn)
    · rfl

theorem references (h : EntryAdded db db' row rows) (hn : db.Numbered) (hid : row.snapshotId = id) :
    (db'.referencesOf id).length = (db.referencesOf id).length + rows.length := by
  obtain ⟨hash, hentries⟩ := h.entriesOf hid
  have hkey := h.key
  have hany : ∀ r : EntryChunkRow, (db'.entriesOf id).any (fun e => e.id == r.entryId) =
      ((db.entriesOf id).any (fun e => e.id == r.entryId) || row.id == r.entryId) := by
    intro r
    rw [hentries, List.any_map, List.any_append]
    simp [Function.comp_def]
  unfold Database.referencesOf
  rw [h.entryChunks, List.filter_append, List.length_append]
  congr 1
  · congr 1
    apply List.filter_congr
    intro r hr
    have hle := hn.references r hr
    have hold : (row.id == r.entryId) = false := by
      rw [beq_eq_false_iff_ne]
      omega
    rw [hany, hold, Bool.or_false]
  · congr 1
    rw [List.filter_eq_self]
    intro r hr
    rw [hany, h.owner r hr]
    simp

end EntryAdded

theorem insertEntry_added {e : ScannedEntry} {entryId : Int}
    (h : insertEntry c.snapshotId e db = (.ok entryId, db')) :
    EntryAdded db db' (EntryRow.ofScanned entryId c.snapshotId e e.logicalSize) [] := by
  obtain ⟨_, _, _, rfl, rfl⟩ := insertEntry_returns h
  refine ⟨rfl, rfl, ⟨EntryRow.fileHash, (List.map_id' _).symm⟩, (List.append_nil _).symm, ?_, rfl⟩
  exact fun r hr => absurd hr List.not_mem_nil

/-- What the references of a file leave in the tables. -/
structure ReferencesAdded (mid db' : Database) (entryId : Int) (rows : List EntryChunkRow) : Prop where
  entries : db'.entries = mid.entries
  last : db'.lastEntryId = mid.lastEntryId
  warnings : db'.warnings = mid.warnings
  entryChunks : db'.entryChunks = mid.entryChunks ++ rows
  owner : ∀ r ∈ rows, r.entryId = entryId

theorem ReferencesAdded.trans {a b e : Database} {entryId : Int} {rows' : List EntryChunkRow}
    (h : ReferencesAdded a b entryId rows) (h' : ReferencesAdded b e entryId rows') :
    ReferencesAdded a e entryId (rows ++ rows') := by
  refine ⟨h'.entries.trans h.entries, h'.last.trans h.last, h'.warnings.trans h.warnings, ?_, ?_⟩
  · rw [h'.entryChunks, h.entryChunks, List.append_assoc]
  · intro r hr
    rcases List.mem_append.mp hr with hr | hr
    · exact h.owner r hr
    · exact h'.owner r hr

theorem ChunkRecorded.added {entryId now : Int} {ref : ChunkReferenceRecord}
    (h : ChunkRecorded objects entryId ref now mid db') :
    ReferencesAdded mid db' entryId
      [⟨entryId, ref.sequenceNumber, ref.hashHex, ref.rawOffset, ref.rawSize⟩] := by
  obtain ⟨after, hensured, rfl⟩ := h.ensured
  rcases hensured.rows with rfl | ⟨_, rfl⟩ <;> exact ⟨rfl, rfl, rfl, rfl, by simp⟩

theorem Referred.added {entryId : Int} {refs : List ChunkReferenceRecord}
    {totals totals' : SnapshotTotals} (h : Referred objects entryId mid totals refs db' totals') :
    ∃ rows, ReferencesAdded mid db' entryId rows ∧ rows.length = refs.length := by
  induction h with
  | nil => exact ⟨[], ⟨rfl, rfl, rfl, (List.append_nil _).symm, by simp⟩, rfl⟩
  | snoc ref now h hr ht ih =>
    obtain ⟨rows, hrows, hlength⟩ := ih
    refine ⟨_, hrows.trans hr.added, ?_⟩
    rw [List.length_append, List.length_append, hlength]
    rfl

/-- The three statements of a file, taken together. -/
theorem file_added {e : ScannedEntry} {entryId : Int} {hash : Bytes} {begun referred : Database}
    (hdb : insertEntry c.snapshotId e db = (.ok entryId, begun))
    (hr : ReferencesAdded begun referred entryId rows)
    (hh : setRegularFileHash entryId hash referred = (.ok (), db')) :
    EntryAdded db db' (EntryRow.ofScanned entryId c.snapshotId e e.logicalSize) rows := by
  obtain ⟨_, _, _, rfl, rfl⟩ := insertEntry_returns hdb
  obtain ⟨_, _, rfl⟩ := setRegularFileHash_returns hh
  refine ⟨rfl, hr.last, ⟨fun e => if referred.hashable (db.lastEntryId + 1) e then some hash
    else e.fileHash, ?_⟩, hr.entryChunks, hr.owner, hr.warnings⟩
  change referred.entries.map _ = _
  rw [hr.entries]
  apply List.map_congr_left
  intro d _
  by_cases hd : referred.hashable (db.lastEntryId + 1) d = true <;> simp [hd]

def ProcessedEntry.skipped? (p : ProcessedEntry) : Option SkippedEntry :=
  match p.value with
  | .warning w => some ⟨w.relativePath, w.message⟩
  | .entry _ => none

def WarningRow.skipped (w : WarningRow) : SkippedEntry := ⟨w.relativePath, w.message⟩

/-- The tables and the counters after some results, for a snapshot that began
without rows. -/
structure Tally (id : SnapshotId) (db : Database) (ps : List ProcessedEntry)
    (totals : SnapshotTotals) : Prop where
  numbered : db.Numbered
  files : totals.fileCount = countEntries db id .regularFile % (maximumByteCount + 1)
  directories : totals.directoryCount = countEntries db id .directory % (maximumByteCount + 1)
  size : (totals.logicalSize : Int) = sumLogicalSize db id
  chunkCounts : db.chunkCounts id = ps.filterMap (fun p => p.chunkReferences.map List.length)
  references : (db.referencesOf id).length = (references ps).length
  skipped : (db.warningsOf id).map WarningRow.skipped = ps.filterMap ProcessedEntry.skipped?

namespace Tally

variable {ps : List ProcessedEntry} {p : ProcessedEntry} {totals totals' : SnapshotTotals}

theorem increment_counts {n counter : Nat} (h : counter = n % (maximumByteCount + 1)) :
    increment counter = (n + 1) % (maximumByteCount + 1) := by
  rw [h]
  exact Nat.mod_add_mod n (maximumByteCount + 1) 1

theorem warning {w : ScanWarning} (h : Tally c.snapshotId db ps totals) (hv : p.value = .warning w)
    (hp : p.chunkReferences = none) (hdb : insertWarning c.snapshotId w db = (.ok (), db')) :
    Tally c.snapshotId db' (ps ++ [p]) totals := by
  obtain rfl := insertWarning_returns hdb
  refine ⟨⟨h.numbered.entries, h.numbered.references⟩, h.files, h.directories, h.size, ?_, ?_, ?_⟩
  · change db.chunkCounts c.snapshotId = _
    rw [List.filterMap_append]
    simpa [hp] using h.chunkCounts
  · change (db.referencesOf c.snapshotId).length = _
    rw [references_append, hp]
    simpa using h.references
  · rw [List.filterMap_append]
    change ((db.warnings ++ [_]).filter (fun r : WarningRow => r.snapshotId == c.snapshotId)).map _ = _
    rw [List.filter_append, List.map_append]
    have hskipped := h.skipped
    unfold Database.warningsOf at hskipped
    simp [hskipped, ProcessedEntry.skipped?, hv, WarningRow.skipped]

/-- An entry that is not a file, or a file with all its references. -/
theorem entry {e : ScannedEntry} {entryId : Int} (h : Tally c.snapshotId db ps totals)
    (hv : p.value = .entry e)
    (hdb : EntryAdded db db' (EntryRow.ofScanned entryId c.snapshotId e e.logicalSize) rows)
    (hfiles : totals'.fileCount = if e.type = .regularFile then increment totals.fileCount
      else totals.fileCount)
    (hdirectories : totals'.directoryCount = if e.type = .directory then
      increment totals.directoryCount else totals.directoryCount)
    (hsize : totals'.logicalSize = totals.logicalSize +
      if e.type = .regularFile then e.logicalSize else 0)
    (hrefs : p.chunkReferences.map List.length =
      if e.type = .regularFile then some rows.length else none)
    (hrows : rows.length = (p.chunkReferences.getD []).length) :
    Tally c.snapshotId db' (ps ++ [p]) totals' := by
  have hid : (EntryRow.ofScanned entryId c.snapshotId e e.logicalSize).snapshotId = c.snapshotId :=
    rfl
  refine ⟨hdb.numbered h.numbered, ?_, ?_, ?_, ?_, ?_, ?_⟩
  · rw [hfiles, hdb.count hid]
    change _ = (_ + if e.type = .regularFile then 1 else 0) % _
    split
    · exact increment_counts h.files
    · exact h.files
  · rw [hdirectories, hdb.count hid]
    change _ = (_ + if e.type = .directory then 1 else 0) % _
    split
    · exact increment_counts h.directories
    · exact h.directories
  · rw [hsize, hdb.size hid, ← h.size]
    change _ = _ + if e.type = .regularFile then (e.logicalSize : Int) else 0
    split <;> simp
  · rw [hdb.chunkCounts h.numbered hid, List.filterMap_append, h.chunkCounts]
    congr 1
    change (if e.type = .regularFile then [rows.length] else []) = _
    simp only [List.filterMap_cons, List.filterMap_nil, hrefs]
    split <;> rfl
  · rw [hdb.references h.numbered hid, h.references, references_append, List.length_append, hrows]
  · rw [List.filterMap_append]
    have hskipped := h.skipped
    unfold Database.warningsOf at hskipped ⊢
    rw [hdb.warnings, hskipped]
    simp [ProcessedEntry.skipped?, hv]

end Tally

/-- The counters keep step with the tables, from any tables without rows of the
snapshot on. -/
theorem Recorded.tally {ps : List ProcessedEntry} {totals : SnapshotTotals}
    (h : Recorded c objects db ps db' totals) (hp : ∀ p ∈ ps, Result c x p)
    (hstart : Tally c.snapshotId db [] noTotals) : Tally c.snapshotId db' ps totals := by
  induction h with
  | nil => exact hstart
  | @warning ps mid db' totals p w h hv hdb ih =>
    have hnone : p.chunkReferences = none := by
      cases hp p (List.mem_append_right _ (List.mem_singleton.mpr rfl)) with
      | passed hj hpass =>
        rw [hpass]
        rfl
      | stored e a refs ho ht ha hv' => cases hv.symm.trans hv'
      | unread e w ho ht hv' hpath hrefs => exact hrefs
    exact (ih (fun q hq => hp q (List.mem_append_left _ hq))).warning hv hnone hdb
  | @entry ps mid db' totals p e entryId h hv ht hdb ih =>
    have hnone : p.chunkReferences = none := by
      cases hp p (List.mem_append_right _ (List.mem_singleton.mpr rfl)) with
      | passed hj hpass =>
        rw [hpass]
        rfl
      | stored e' a refs ho ht' ha hv' =>
        cases hv.symm.trans hv'
        exact absurd ht' ht
      | unread e' w ho ht' hv' => cases hv.symm.trans hv'
    refine (ih (fun q hq => hp q (List.mem_append_left _ hq))).entry hv (insertEntry_added hdb)
      ?_ ?_ ?_ ?_ (by rw [hnone]; rfl)
    · cases he : e.type <;> simp_all [countEntry]
    · cases he : e.type <;> simp_all [countEntry]
    · cases he : e.type <;> simp_all [countEntry]
    · rw [hnone, if_neg ht]
      rfl
  | @file ps mid begun referred db' totals totals' p e entryId refs h hv ht hrefs hdb hr hh hmax ih =>
    obtain ⟨rows, hrows, hlength⟩ := hr.added
    refine (ih (fun q hq => hp q (List.mem_append_left _ hq))).entry hv (file_added hdb hrows hh)
      ?_ ?_ ?_ ?_ (by rw [hrefs]; exact hlength)
    · rw [hr.entries.files, if_pos ht]
      rfl
    · rw [hr.entries.directories, if_neg (by rw [ht]; exact nofun)]
      rfl
    · rw [hr.entries.logicalSize, if_pos ht]
      rfl
    · rw [hrefs, if_pos ht, hlength]
      rfl

/-- What was skipped is what was recorded as a warning. -/
def Listed (s : State) : Prop := s.skippedEntries = s.handled.filterMap ProcessedEntry.skipped?

theorem Listed.same (h : Listed s) (hskipped : t.skippedEntries = s.skippedEntries)
    (hhandled : t.handled = s.handled) : Listed t := by
  unfold Listed
  rw [hskipped, hhandled]
  exact h

theorem Listed.records {p : ProcessedEntry} (h : Listed s)
    (hskipped : t.skippedEntries = s.skippedEntries ++ p.skipped?.toList)
    (hhandled : t.handled = s.handled ++ [p]) : Listed t := by
  unfold Listed
  rw [hskipped, hhandled, List.filterMap_append, ← h]
  cases hp : p.skipped? <;> simp [hp]

/-- The entry the writer is at is no warning. -/
def WriterPc.atEntry : WriterPc → Prop
  | .referring p _ _ => p.skipped? = none
  | _ => True

theorem WriterMove.listed (hm : WriterMove c s t) (hp : s.writer.atEntry) (h : Listed s) : Listed t := by
  have hentry : ∀ {p : ProcessedEntry} {e : ScannedEntry}, p.value = .entry e → p.skipped? = none := by
    intro p e hv
    simp [ProcessedEntry.skipped?, hv]
  cases hm with
  | warns p w b b' pc hp hb hv hdb hr hpc =>
    exact h.records (by simp [ProcessedEntry.skipped?, hv]) rfl
  | inserts p e b b' id pc hp hb hv ht hdb hr hpc =>
    exact h.records (by simp [hentry hv]) rfl
  | hashes p id b b' pc hpc hb hdb hr hnext =>
    rw [hpc] at hp
    exact h.records (by simp [show p.skipped? = none from hp]) rfl
  | shuts f stage hp => exact h.same shut_untouched.skippedEntries shut_untouched.handled
  | _ => exact h.same rfl rfl

theorem WriterMove.atEntry (hm : WriterMove c s t) (hp : s.writer.atEntry) : t.writer.atEntry := by
  have hquiet : ∀ {pc : WriterPc}, pc = .popping ∨ pc = .committing false → pc.atEntry := by
    rintro pc (rfl | rfl) <;> trivial
  cases hm with
  | begins p e b id db references hw hb hv ht hdb hrefs hmax =>
    simp [WriterPc.atEntry, ProcessedEntry.skipped?, hv]
  | refers p id ref rest b db totals now hw hb hdb ht =>
    rw [hw] at hp
    exact hp
  | warns p w b b' pc hw hb hv hdb hr hpc => exact hquiet hpc
  | inserts p e b b' id pc hw hb hv ht hdb hr hpc => exact hquiet hpc
  | hashes p id b b' pc hw hb hdb hr hpc => exact hquiet hpc
  | skips last b hw hb hr => cases last <;> trivial
  | commits last b hw hb hr hs => cases last <;> trivial
  | shuts f stage hw =>
    rcases afterStage_cases WriterPc.shutting .done f stage with he | ⟨stage', he⟩ <;>
      simp only [he, WriterPc.atEntry]
  | _ => trivial

theorem MainMove.listed (hm : MainMove c s t) (h : Listed s) : Listed t := by
  cases hm with
  | cancels f stage hp => exact h.same shut_untouched.skippedEntries shut_untouched.handled
  | shuts f stage hp => exact h.same shut_untouched.skippedEntries shut_untouched.handled
  | creates n hp =>
    have hcreates := create_creates (c := c) (s := s) n
    generalize s.create c n = u at hcreates
    cases hcreates <;> exact h.same rfl rfl
  | _ => exact h.same rfl rfl

theorem run_listed {e : Bool} {ls : List Label} (h : run c x (State.start c v e) ls = some s) :
    Listed s := by
  have hall := run_invariant (P := fun s => Young s ∧ s.writer.atEntry ∧ Listed s) ?_
    ⟨young_start, trivial, rfl⟩ h
  · exact hall.2.2
  · intro s t ⟨hy, hp, hl⟩ hm
    refine ⟨hm.young hy, ?_, ?_⟩
    · rcases hm.writer_cases hy with he | hw | ⟨_, he⟩
      · rwa [he]
      · exact hw.atEntry hp
      · rw [he]
        trivial
    · cases hm with
      | scanner hm => exact hl.same hm.frame.skippedEntries hm.frame.handled
      | worker i hi hm => exact hl.same hm.frame.skippedEntries hm.frame.handled
      | writer hm => exact hm.listed hp hl
      | main hm => exact hm.listed hl
      | other hm => exact hl.same hm.frame.skippedEntries hm.frame.handled

/-- No row carries the identifier of a snapshot that begins. -/
structure Fresh (id : SnapshotId) (db : Database) : Prop where
  numbered : db.Numbered
  entries : db.entriesOf id = []
  warnings : db.warningsOf id = []

/-- What the pipeline of a call begins with: the tables that recovery left, and a pending row. -/
structure Entered (engine : Engine) (call : Call) (c : Config) (old : Database) (begun : Session) :
    Prop where
  consistent : old.Consistent
  config : ∃ startedAtNs, c = engine.config call c.snapshotId startedAtNs
  id : c.snapshotId = old.lastSnapshotId + 1
  row : ∃ row : SnapshotRow, row.id = c.snapshotId ∧ row.status = .pending ∧
    begun.vault.db = { old with
      snapshots := old.snapshots ++ [row], lastSnapshotId := old.lastSnapshotId + 1 }

theorem openSnapshot_entered {o : Outside} {r : Opened} {engine : Engine} {call : Call}
    {before begun : Session} (hdb : before.vault.db.Consistent)
    (h : openSnapshot o r engine call before = (.ok c, begun)) :
    ∃ old, Entered engine call c old begun := by
  obtain ⟨_, prepared, hprepare, h⟩ := Program.bind_returns.mp h
  obtain ⟨_, recovered, hrecover, h⟩ := Program.bind_returns.mp h
  have hprepared : Keeps Database.Consistent before.vault.objects prepared := by
    refine Program.Maintains.final (?_ : Program.Maintains _ (prepare o r call)) ⟨hdb, rfl⟩ hprepare
    refine Program.Maintains.ite (fun _ => keeps_throwing _) (fun _ => ?_)
    refine Program.Maintains.ite (fun _ => keeps_throwing _) (fun _ => ?_)
    exact keeps_calling (keeps_temporary (fun _ => ⟨rfl, rfl⟩))
      (keeps_temporary (fun _ => ⟨rfl, rfl⟩))
  have hkeys : recovered.vault.db.Consistent :=
    ((keeps_recoverAfterWriterLock consistent_withstands).final hprepared hrecover).1
  obtain ⟨startedAtNs, u, hread, h⟩ := Program.bind_returns.mp h
  cases hread
  obtain ⟨id, t, hcreate, h⟩ := Program.bind_returns.mp h
  cases h
  obtain ⟨db, hbody, ht⟩ := transaction_returns hcreate
  obtain ⟨_, u, hbind, hinsert⟩ := Program.bind_returns.mp hbody
  obtain rfl := bindTexts_returns hbind
  cases hinsert
  exact ⟨recovered.vault.db, hkeys, ⟨_, rfl⟩, rfl, _, rfl, rfl, by rw [ht]⟩

/-- No row has the new identifier. -/
theorem Entered.unused {engine : Engine} {call : Call} {old : Database} {begun : Session}
    (h : Entered engine call c old begun) : ∀ q ∈ old.snapshots, q.id ≠ c.snapshotId := by
  intro q hq hid
  have hle := h.consistent.snapshotIds q hq
  rw [hid, h.id] at hle
  exact Int.not_le.mpr (Int.lt_succ _) hle

/-- A snapshot begins without rows. -/
theorem openSnapshot_fresh {o : Outside} {r : Opened} {engine : Engine} {call : Call}
    {before begun : Session} (hdb : before.vault.db.Consistent)
    (h : openSnapshot o r engine call before = (.ok c, begun)) :
    Fresh c.snapshotId begun.vault.db := by
  obtain ⟨old, hentered⟩ := openSnapshot_entered hdb h
  have hkeys := hentered.consistent
  obtain ⟨row, -, -, hvault⟩ := hentered.row
  rw [hvault]
  refine ⟨⟨hkeys.entryIds, ?_⟩, ?_, ?_⟩
  · intro ref href
    obtain ⟨e, he, hid⟩ := hkeys.referenceEntry ref href
    rw [← hid]
    exact hkeys.entryIds e he
  · refine List.filter_eq_nil_iff.mpr fun e he hid => ?_
    obtain ⟨q, hq, hqid⟩ := hkeys.entrySnapshot e he
    exact hentered.unused q hq (hqid.trans (beq_iff_eq.mp hid))
  · refine List.filter_eq_nil_iff.mpr fun w hw hid => ?_
    obtain ⟨q, hq, hqid⟩ := hkeys.warningSnapshot w hw
    exact hentered.unused q hq (hqid.trans (beq_iff_eq.mp hid))

theorem Fresh.tally (h : Fresh id db) : Tally id db [] noTotals := by
  have hcount : ∀ type, countEntries db id type = 0 := by
    intro type
    rw [countEntries, h.entries]
    rfl
  refine ⟨h.numbered, ?_, ?_, ?_, ?_, ?_, ?_⟩
  · exact (congrArg (· % (maximumByteCount + 1)) (hcount .regularFile)).symm
  · exact (congrArg (· % (maximumByteCount + 1)) (hcount .directory)).symm
  · rw [sumLogicalSize, h.entries]
    rfl
  · rw [Database.chunkCounts, Database.filesOf, h.entries]
    rfl
  · rw [Database.referencesOf, h.entries]
    simp [references]
  · rw [h.warnings]
    rfl

theorem chunkCounts_sum (ps : List ProcessedEntry) :
    (ps.filterMap (fun p => p.chunkReferences.map List.length)).sum = (references ps).length := by
  induction ps with
  | nil => rfl
  | cons p ps ih =>
    simp only [references, List.flatMap_cons, List.length_append] at ih ⊢
    cases hp : p.chunkReferences with
    | none => simpa [hp] using ih
    | some refs => simp [hp, ih]

/-- The chunk counts of the files that were handed to the writer. -/
def fileChunkCounts (ps : List ProcessedEntry) : List Nat :=
  (ps.filter (fun p => p.value.regular)).map ProcessedEntry.chunkCount

theorem fileChunkCounts_sum {ps : List ProcessedEntry} (hp : ∀ p ∈ ps, Result c x p) :
    (fileChunkCounts ps).sum = (references ps).length := by
  induction ps with
  | nil => rfl
  | cons p ps ih =>
    have hrest := ih (fun q hq => hp q (List.mem_cons_of_mem _ hq))
    have hone : (if p.value.regular then p.chunkCount else 0) =
        (p.chunkReferences.getD []).length := by
      cases hp p List.mem_cons_self with
      | passed hj hpass =>
        rw [hpass]
        simp [passed, hj]
      | stored e a refs ho ht ha hv hsame hrefs hspool hsize hhash hcount =>
        rw [hrefs, hv, hcount]
        simp [FileJob.regular, ht]
      | unread e w ho ht hv hpath hrefs ha htries =>
        rw [hrefs, hv]
        rfl
    unfold fileChunkCounts references at hrest ⊢
    rw [List.flatMap_cons, List.length_append, ← hone, ← hrest]
    cases hregular : p.value.regular <;> simp [hregular]

/-- The result of a call, the row it has published and the rows of its snapshot
agree. -/
structure Agrees (db : Database) (result : SnapshotResult) (row : SnapshotRow)
    (handled : List ProcessedEntry) : Prop where
  published : row ∈ db.snapshots ∧ row.id = result.snapshotId ∧ row.status = .complete
  files : row.fileCount = result.fileCount ∧
    result.fileCount = countEntries db result.snapshotId .regularFile
  directories : row.directoryCount = result.directoryCount ∧
    result.directoryCount = countEntries db result.snapshotId .directory
  bytes : row.logicalSize = result.logicalBytes ∧
    (result.logicalBytes : Int) = sumLogicalSize db result.snapshotId
  references : result.newChunks + result.reusedChunks = (db.referencesOf result.snapshotId).length
  chunkCounts : result.newChunks + result.reusedChunks = (db.chunkCounts result.snapshotId).sum
  results : result.newChunks + result.reusedChunks = (fileChunkCounts handled).sum
  stored : result.newStoredBytes = (((Snapshot.references handled).filter
    ChunkReferenceRecord.newlyStored).map ChunkReferenceRecord.storedSize).sum
  skipped : result.skippedEntries = (db.warningsOf result.snapshotId).map WarningRow.skipped
  room : ∀ counter ∈ [result.fileCount, result.directoryCount, result.logicalBytes,
    result.newStoredBytes, result.newChunks, result.reusedChunks], counter ≤ maximumByteCount

/-- The counters that a successful call reports are those of the row it
publishes, which the tables bear out; none of them has overflowed. -/
theorem snapshot_counters {o : Outside} {r : Opened} {engine : Engine} {call : Call}
    {before begun after : Session} {result : SnapshotResult} (hdb : before.vault.db.Consistent)
    (hopen : openSnapshot o r engine call before = (.ok c, begun))
    (h : createSnapshot o r x engine call before = (.ok result, after)) :
    (∃ row, Agrees after.vault.db result row (call.final x c begun.vault).handled) ∧
      ∀ ls s, run c x (State.start c begun.vault call.externalStop) ls = some s → BatchRoom c s := by
  refine ⟨?_, fun _ _ hrun => run_batch hrun⟩
  obtain ⟨hpublished, rfl, hafter⟩ := createSnapshot_returns hopen h
  have hstart := (openSnapshot_fresh hdb hopen).tally
  obtain ⟨ls, hrun⟩ := follow_run (c := c) (x := x) call.schedule
    (State.start c begun.vault call.externalStop)
  change run c x _ ls = some (call.final x c begun.vault) at hrun
  generalize call.final x c begun.vault = t at *
  have hresults := (run_results hrun).handled
  obtain ⟨committed, now, hrecorded, hcomplete⟩ := run_published hrun hpublished
  have htally := hrecorded.tally hresults hstart
  have hcounted := hrecorded.counted hresults
  have hroom := hrecorded.room hresults
  obtain ⟨hone, hfinal, hfileMax, hdirectoryMax, hstoredMax⟩ := markSnapshotComplete_returns hcomplete
  obtain ⟨row, hrow⟩ := List.length_eq_one_iff.mp hone
  obtain ⟨hmem, hselected⟩ := List.mem_filter.mp (hrow ▸ List.mem_singleton.mpr rfl)
  -- the counts the database makes again are small, so those of the writer did not wrap
  have hint : maximumInt64 < maximumByteCount + 1 := by decide
  have hfiles : t.totals.fileCount = countEntries committed c.snapshotId .regularFile :=
    htally.files.trans (Nat.mod_eq_of_lt (by omega))
  have hdirectories : t.totals.directoryCount = countEntries committed c.snapshotId .directory :=
    htally.directories.trans (Nat.mod_eq_of_lt (by omega))
  have htotal : t.totals.newChunkCount + t.totals.reusedChunkCount = (references t.handled).length :=
    hcounted.total
  have hsame : ∀ {α : Type} (look : Database → α),
      (∀ snapshots, look { committed with snapshots } = look committed) →
      look after.vault.db = look committed := by
    intro α look hlook
    rw [hafter, hfinal]
    exact hlook _
  refine ⟨row.completed (countEntries committed c.snapshotId .regularFile)
    (countEntries committed c.snapshotId .directory)
    (countEntries committed c.snapshotId .symbolicLink) (sumLogicalSize committed c.snapshotId)
    t.totals.newStoredSize t.totals.newChunkCount t.totals.reusedChunkCount t.totals.durationMs now,
    ?_, ?_, ?_, ?_, ?_, ?_, ?_, ?_, ?_, ?_⟩
  · rw [hafter, hfinal]
    refine ⟨List.mem_map.mpr ⟨row, hmem, if_pos hselected⟩, ?_, rfl⟩
    simp only [Bool.and_eq_true, beq_iff_eq] at hselected
    exact hselected.1.1
  · rw [hsame (fun db => countEntries db _ _) (fun _ => rfl)]
    exact ⟨congrArg Nat.cast hfiles.symm, hfiles⟩
  · rw [hsame (fun db => countEntries db _ _) (fun _ => rfl)]
    exact ⟨congrArg Nat.cast hdirectories.symm, hdirectories⟩
  · rw [hsame (fun db => sumLogicalSize db _) (fun _ => rfl)]
    exact ⟨htally.size.symm, htally.size⟩
  · rw [hsame (fun db => (db.referencesOf _).length) (fun _ => rfl)]
    exact htotal.trans htally.references.symm
  · rw [hsame (fun db => (db.chunkCounts _).sum) (fun _ => rfl)]
    change _ = (committed.chunkCounts c.snapshotId).sum
    rw [htally.chunkCounts, chunkCounts_sum]
    exact htotal
  · rw [fileChunkCounts_sum hresults]
    exact htotal
  · exact hcounted.size
  · rw [hsame (fun db => (db.warningsOf _).map WarningRow.skipped) (fun _ => rfl)]
    exact (run_listed hrun).trans htally.skipped.symm
  · intro counter hcounter
    have hlogical : t.totals.logicalSize ≤ maximumByteCount := hroom.2
    have hreferences : (references t.handled).length ≤ t.totals.logicalSize := hroom.1
    simp only [State.result, List.mem_cons, List.not_mem_nil, or_false] at hcounter
    omega

theorem empty_consistent : Database.empty.Consistent := by
  constructor
  · constructor <;> exact List.nodup_nil
  all_goals simp [Database.empty]

/-- A call that publishes a file. -/
theorem snapshot_counters_steady : ∃ c begun result after row,
    openSnapshot sampleOutside sampleOpened sampleEngine steadyCall sampleSession = (.ok c, begun) ∧
    createSnapshot sampleOutside sampleOpened sampleExternals sampleEngine steadyCall sampleSession =
      (.ok result, after) ∧
    Agrees after.vault.db result row (steadyCall.final sampleExternals c begun.vault).handled := by
  have hrun : gives (fun _ _ => gives (fun _ _ => true) (createSnapshot sampleOutside sampleOpened
        sampleExternals sampleEngine steadyCall sampleSession))
      (openSnapshot sampleOutside sampleOpened sampleEngine steadyCall sampleSession) = true := by
    decide +kernel
  obtain ⟨c, begun, hopen, hrun⟩ := gives_iff.mp hrun
  obtain ⟨result, after, hcreate, -⟩ := gives_iff.mp hrun
  obtain ⟨⟨row, hrow⟩, _⟩ := snapshot_counters empty_consistent hopen hcreate
  exact ⟨c, begun, result, after, row, hopen, hcreate, hrow⟩

end Snapshot
end LocalVault
