import LocalVault.Proofs.Shelving
import LocalVault.Proofs.Treelike

namespace LocalVault.Snapshot
open Library Repository

variable {x : Externals} {c : Config} {maximum : Nat} {drawn : Bytes → Prop} {objects : Objects}
  {db db' mid : Database} {id : SnapshotId} {chunks chunks' : List ChunkRow}
  {ref : ChunkReferenceRecord} {refs : List ChunkReferenceRecord} {raws : List Bytes}
  {rows : List EntryChunkRow} {ps : List ProcessedEntry} {p : ProcessedEntry}
  {totals totals' : SnapshotTotals} {number offset : Nat}

/-- A reference that agrees with its chunk row and its object. -/
def Vouched (objects : Objects) (chunks : List ChunkRow) (ref : ChunkReferenceRecord) : Prop :=
  ∃ chunk ∈ chunks, chunk.hash = ref.hashHex ∧ chunk.objectPath = derivedPath ref.hashHex ∧
    chunk.rawSize = ref.rawSize ∧ chunk.compressedSize = ref.storedSize ∧
    ∃ content, objects (derivedPath ref.hashHex) = some (.file content) ∧
      content.length = ref.storedSize

theorem Vouched.grows (h : Vouched objects chunks ref) (hsub : chunks <+: chunks') :
    Vouched objects chunks' ref := by
  obtain ⟨chunk, hchunk, hrest⟩ := h
  exact ⟨chunk, hsub.subset hchunk, hrest⟩

theorem ChunkRecorded.vouched {entryId now : Int}
    (h : ChunkRecorded objects entryId ref now db db') :
    Vouched objects db'.chunks ref ∧ db.chunks <+: db'.chunks := by
  obtain ⟨mid, hensured, rfl⟩ := h.ensured
  obtain ⟨row, hrow, hraw, hstored, hpath⟩ := hensured.row
  have hmem := List.mem_filter.mp (hrow ▸ List.mem_singleton.mpr rfl)
  refine ⟨⟨row, hmem.1, by simpa using hmem.2, hpath, hraw, hstored, h.object⟩, ?_⟩
  rcases hensured.rows with rfl | ⟨-, rfl⟩
  · exact List.prefix_rfl
  · exact List.prefix_append _ _

theorem Referred.vouched {entryId : Int}
    (h : Referred objects entryId db totals refs db' totals') :
    (∀ ref ∈ refs, Vouched objects db'.chunks ref) ∧ db.chunks <+: db'.chunks := by
  induction h with
  | nil => exact ⟨fun _ hr => absurd hr List.not_mem_nil, List.prefix_rfl⟩
  | snoc ref now h hr ht ih =>
    obtain ⟨hvouched, hprefix⟩ := hr.vouched
    refine ⟨fun r hin => ?_, ih.2.trans hprefix⟩
    rcases List.mem_append.mp hin with hin | hin
    · exact (ih.1 r hin).grows hprefix
    · rw [List.mem_singleton.mp hin]
      exact hvouched

/-- The references of a file that was handled. -/
def ProcessedEntry.Files (p : ProcessedEntry) (refs : List ChunkReferenceRecord) : Prop :=
  p.chunkReferences = some refs ∧ ∃ e, p.value = .entry e ∧ e.type = .regularFile

/-- What the writer has recorded vouches for the references of all its files. -/
theorem Recorded.vouched (h : Recorded c objects db ps db' totals) :
    (∀ p ∈ ps, ∀ refs, p.Files refs → ∀ ref ∈ refs, Vouched objects db'.chunks ref) ∧
      db.chunks <+: db'.chunks := by
  induction h with
  | nil => exact ⟨fun _ hp => absurd hp List.not_mem_nil, List.prefix_rfl⟩
  | warning p w h hv hdb ih =>
    obtain rfl := insertWarning_returns hdb
    refine ⟨fun q hq refs hfiles => ?_, ih.2⟩
    rcases List.mem_append.mp hq with hq | hq
    · exact ih.1 q hq refs hfiles
    · obtain ⟨-, e, he, -⟩ := hfiles
      rw [List.mem_singleton.mp hq, hv] at he
      cases he
  | entry p e entryId h hv ht hdb ih =>
    obtain ⟨-, -, -, -, rfl⟩ := insertEntry_returns hdb
    refine ⟨fun q hq refs hfiles => ?_, ih.2⟩
    rcases List.mem_append.mp hq with hq | hq
    · exact ih.1 q hq refs hfiles
    · obtain ⟨-, e', he, hregular⟩ := hfiles
      rw [List.mem_singleton.mp hq, hv] at he
      cases he
      exact absurd hregular ht
  | file p e entryId refs h hv ht hrefs hdb hr hh hmax ih =>
    obtain ⟨-, -, -, -, rfl⟩ := insertEntry_returns hdb
    obtain ⟨-, -, rfl⟩ := setRegularFileHash_returns hh
    obtain ⟨hvouched, hprefix⟩ := hr.vouched
    refine ⟨fun q hq refs' hfiles => ?_, ih.2.trans hprefix⟩
    rcases List.mem_append.mp hq with hq | hq
    · exact fun ref hin => (ih.1 q hq refs' hfiles ref hin).grows hprefix
    · obtain ⟨hfound, -⟩ := hfiles
      rw [List.mem_singleton.mp hq, hrefs] at hfound
      cases hfound
      exact hvouched

/-- A vouched reference to drawn bytes names a chunk that gives them back. -/
theorem Vouched.intact {raw : Bytes} (h : Vouched objects db.chunks ref)
    (hshelved : Shelved x maximum drawn objects) (hfree : CollisionFree x drawn) (hin : drawn raw)
    (hhash : ref.hashHex = hashRaw x raw) (hsize : ref.rawSize = raw.length)
    {row : EntryChunkRow} (hrow : row.chunkHash = ref.hashHex) (hlength : row.rawLength = ref.rawSize) :
    ChunkIntact x maximum db objects row raw := by
  obtain ⟨chunk, hchunk, hkey, hpath, hraw, hstored, content, hfile, hcontent⟩ := h
  have hframed := hshelved.framed hfree hin (hhash ▸ hfile)
  refine ⟨by rw [hlength, hsize], chunk, hchunk, hkey.trans hrow.symm, ?_⟩
  exact ⟨(hkey.trans hhash).symm, hpath.trans (hkey ▸ rfl), by rw [hraw, hsize], hframed.nonempty,
    hframed.limit, content, hkey ▸ hfile, by rw [hstored, hcontent], hframed.compressed,
    hframed.bound, hframed.inverse⟩

/-- References as they were spooled are numbered and placed one behind the other. -/
theorem Spooled.contiguous (h : Spooled x number offset refs raws)
    (hrows : rows.map EntryChunkRow.unnumbered = refs.map (ChunkReferenceRecord.chunkRow 0)) :
    Contiguous number offset rows := by
  induction refs generalizing rows raws number offset with
  | nil =>
    rw [List.map_eq_nil_iff.mp hrows]
    trivial
  | cons ref refs ih =>
    cases raws with
    | nil => exact h.elim
    | cons raw raws =>
      obtain ⟨hnumber, hoffset, hsize, -, hrest⟩ := h
      obtain ⟨row, rows, rfl⟩ : ∃ row rest, rows = row :: rest := by
        cases rows with
        | nil => cases hrows
        | cons row rest => exact ⟨row, rest, rfl⟩
      obtain ⟨hrow, htail⟩ := List.cons.inj hrows
      have hsequence : row.sequenceNumber = ref.sequenceNumber :=
        congrArg EntryChunkRow.sequenceNumber hrow
      have hplace : row.rawOffset = ref.rawOffset := congrArg EntryChunkRow.rawOffset hrow
      have hlength : row.rawLength = ref.rawSize := congrArg EntryChunkRow.rawLength hrow
      refine ⟨by rw [hsequence, hnumber], by rw [hplace, hoffset], ?_⟩
      have hnext := ih hrest htail
      rw [hlength, hsize]
      push_cast at hnext
      exact hnext

theorem Spooled.parts (h : Spooled x number offset refs raws)
    (hrows : rows.map EntryChunkRow.unnumbered = refs.map (ChunkReferenceRecord.chunkRow 0))
    (hvouched : ∀ ref ∈ refs, Vouched objects db.chunks ref)
    (hshelved : Shelved x maximum drawn objects) (hfree : CollisionFree x drawn)
    (hin : ∀ raw ∈ raws, drawn raw) :
    List.Forall₂ (ChunkIntact x maximum db objects) rows raws := by
  induction refs generalizing rows raws number offset with
  | nil =>
    rw [List.map_eq_nil_iff.mp hrows]
    cases raws with
    | nil => exact .nil
    | cons raw raws => exact h.elim
  | cons ref refs ih =>
    cases raws with
    | nil => exact h.elim
    | cons raw raws =>
      obtain ⟨-, -, hsize, hhash, hrest⟩ := h
      obtain ⟨row, rows, rfl⟩ : ∃ row rest, rows = row :: rest := by
        cases rows with
        | nil => cases hrows
        | cons row rest => exact ⟨row, rest, rfl⟩
      obtain ⟨hrow, htail⟩ := List.cons.inj hrows
      refine .cons ?_ (ih hrest htail (fun ref' hr => hvouched ref' (List.mem_cons_of_mem _ hr))
        (fun raw' hr => hin raw' (List.mem_cons_of_mem _ hr)))
      exact (hvouched ref List.mem_cons_self).intact hshelved hfree (hin raw List.mem_cons_self)
        hhash hsize (congrArg EntryChunkRow.chunkHash hrow) (congrArg EntryChunkRow.rawLength hrow)

/-- What a regular file was recorded from. -/
theorem Result.recorded {e : ScannedEntry} (h : Result c x p) (hv : p.value = .entry e)
    (ht : e.type = .regularFile) :
    ∃ a refs, p.accepted = some a ∧ p.chunkReferences = some refs ∧ Spooled x 0 0 refs a.chunks ∧
      a.chunks.flatten.length = e.logicalSize ∧ p.fileHashHex = hashRaw x a.chunks.flatten := by
  cases h with
  | passed hj hp =>
    have hvalue : p.value = p.origin := by rw [hp]; rfl
    rw [← hvalue, hv] at hj
    simp [FileJob.regular, ht] at hj
  | stored e' a refs ho ht' ha hv' hsame hrefs hspool hsize hhash hcount htries hsource =>
    rw [hv] at hv'
    cases hv'
    exact ⟨a, refs, ha, hrefs, hspool, hsize, hhash⟩
  | unread e' w ho ht' hv' hpath hrefs ha htries hsource =>
    rw [hv] at hv'
    cases hv'

/-- Rows that are numbered without gaps are in their order. -/
theorem contiguous_sorted {number offset : Int} (h : Contiguous number offset rows) :
    (∀ row ∈ rows, number ≤ row.sequenceNumber) ∧
      rows.Pairwise (fun a b => a.sequenceNumber ≤ b.sequenceNumber) := by
  induction rows generalizing number offset with
  | nil => simp
  | cons row rows ih =>
    obtain ⟨hnumber, -, hrest⟩ := h
    obtain ⟨hbehind, hsorted⟩ := ih hrest
    simp only [List.forall_mem_cons, List.pairwise_cons]
    refine ⟨⟨hnumber.ge, fun later hlater => ?_⟩, fun later hlater => ?_, hsorted⟩
    · have := hbehind later hlater
      omega
    · have := hbehind later hlater
      omega

/-- A file of a snapshot that was made can be read back. -/
theorem MadeOf.file (h : MadeOf x c db ps) (hdrawn : ∀ p ∈ ps, p.Drawn drawn)
    (hvouched : ∀ p ∈ ps, ∀ refs, p.Files refs → ∀ ref ∈ refs, Vouched objects db.chunks ref)
    (hshelved : Shelved x maximum drawn objects) (hfree : CollisionFree x drawn) {row : EntryRow}
    (hrow : row ∈ db.entriesOf c.snapshotId) (ht : row.entryType = .regularFile) :
    ∃ content, FileIntact x maximum db objects row content := by
  have hfiled : (row.unnumbered, (db.entryChunksOf row.id).map EntryChunkRow.unnumbered) ∈
      db.filed c.snapshotId := List.mem_map_of_mem hrow
  rw [h.filed.entries] at hfiled
  obtain ⟨p, hp, hsome⟩ := List.mem_filterMap.mp hfiled
  unfold ProcessedEntry.filed? at hsome
  cases hv : p.value with
  | warning w =>
    rw [hv] at hsome
    cases hsome
  | entry e =>
    rw [hv] at hsome
    obtain ⟨hentry, hreferences⟩ := Prod.mk.inj (Option.some.inj hsome)
    have htype : e.type = .regularFile := (congrArg EntryRow.entryType hentry).trans ht
    rw [if_pos htype] at hentry
    obtain ⟨a, refs, ha, hrefs, hspool, hsize, hhash⟩ := (h.results p hp).recorded hv htype
    rw [hrefs, Option.getD_some] at hreferences
    have hcontiguous := hspool.contiguous hreferences.symm
    have hsorted : db.fileChunks row.id = db.entryChunksOf row.id :=
      (contiguous_sorted hcontiguous).2.insertionSort_eq
    refine ⟨a.chunks.flatten, ?_, ?_, hsorted ▸ hcontiguous, a.chunks, hsorted ▸ ?_, rfl⟩
    · have hfile : row.fileHash = some p.fileHashHex := (congrArg EntryRow.fileHash hentry).symm
      rw [hfile, hhash]
      rfl
    · have hlogical : row.logicalSize = e.logicalSize :=
        (congrArg EntryRow.logicalSize hentry).symm
      rw [hlogical, hsize]
    · exact hspool.parts hreferences.symm (hvouched p hp refs ⟨hrefs, e, hv, htype⟩) hshelved hfree
        (hdrawn p hp a ha)

theorem MadeOf.intact (h : MadeOf x c db ps) (hdrawn : ∀ p ∈ ps, p.Drawn drawn)
    (hvouched : ∀ p ∈ ps, ∀ refs, p.Files refs → ∀ ref ∈ refs, Vouched objects db.chunks ref)
    (hshelved : Shelved x maximum drawn objects) (hfree : CollisionFree x drawn)
    (htree : WellFormedTree ((db.entriesOf c.snapshotId).map EntryRow.place)) :
    SnapshotIntact x maximum db objects c.snapshotId := by
  refine ⟨?_, fun row hrow ht => h.file hdrawn hvouched hshelved hfree hrow ht⟩
  obtain ⟨place, hplace, hroot, hdirectory⟩ := htree.root
  obtain ⟨row, hrow, rfl⟩ := List.mem_map.mp hplace
  have hpaths : ((db.entriesOf c.snapshotId).map EntryRow.relativePath).Nodup := by
    have hdistinct := htree.distinct
    rwa [List.map_map] at hdistinct
  have honly := filter_key hpaths hrow
  have hempty : row.relativePath = [] := hroot
  rw [hempty] at honly
  exact ⟨row, honly, hdirectory⟩

end LocalVault.Snapshot
