import LocalVault.Proofs.Writing

namespace LocalVault.Snapshot
open Library Repository

variable {c : Config} {x : Externals} {objects : Objects} {db mid db' : Database}
  {refs before : List ChunkReferenceRecord} {ref : ChunkReferenceRecord}
  {totals totals' : SnapshotTotals} {ps : List ProcessedEntry} {p : ProcessedEntry}

/-- The references of the results that were accepted. -/
def references (ps : List ProcessedEntry) : List ChunkReferenceRecord :=
  ps.flatMap (fun p => p.chunkReferences.getD [])

theorem references_append (ps : List ProcessedEntry) (p : ProcessedEntry) :
    references (ps ++ [p]) = references ps ++ p.chunkReferences.getD [] := by
  simp [references]

/-- Only a file has chunks. -/
theorem Result.no_chunks (h : Result c x p)
    (hv : ∀ e, p.value = .entry e → e.type ≠ .regularFile) : p.chunkReferences.getD [] = [] := by
  cases h with
  | passed hj hp =>
    rw [hp]
    rfl
  | stored e a refs ho ht ha hv' hsame hrefs hspool hsize hhash hcount htries hsource =>
    exact absurd rfl (ht ▸ hv _ hv')
  | unread e w ho ht hv' hpath hrefs ha htries hsource =>
    rw [hrefs]
    rfl

theorem Spooled.size {raws : List Bytes} {number offset : Nat}
    (h : Spooled x number offset refs raws) :
    (refs.map ChunkReferenceRecord.rawSize).sum = raws.flatten.length := by
  induction refs generalizing raws number offset with
  | nil =>
    cases raws with
    | nil => rfl
    | cons raw raws => cases h
  | cons ref refs ih =>
    cases raws with
    | nil => cases h
    | cons raw raws => simp [h.2.2.1, ih h.2.2.2.2]

/-- The references of a file are its bytes. -/
theorem Result.file {e : ScannedEntry} (h : Result c x p) (hv : p.value = .entry e)
    (ht : e.type = .regularFile) (hrefs : p.chunkReferences = some refs) :
    (refs.map ChunkReferenceRecord.rawSize).sum = e.logicalSize ∧ p.chunkCount = refs.length := by
  cases h with
  | passed hj hp =>
    rw [hp] at hrefs
    cases hrefs
  | stored e' a refs' ho ht' ha hv' hsame hrefs' hspool hsize hhash hcount htries hsource =>
    cases hv.symm.trans hv'
    cases hrefs.symm.trans hrefs'
    exact ⟨hspool.size.trans hsize, hcount⟩
  | unread e' w ho ht' hv' hpath hrefs' ha htries hsource => cases hv.symm.trans hv'

/-- A counter that has room counts. -/
theorem increment_room {n : Nat} (h : n < maximumByteCount) : increment n = n + 1 :=
  Nat.mod_eq_of_lt (Nat.succ_lt_succ h)

/-- The counters of chunks are those of the references. -/
structure Counted (totals : SnapshotTotals) (refs : List ChunkReferenceRecord) : Prop where
  count : totals.newChunkCount = (refs.filter ChunkReferenceRecord.newlyStored).length
  reused : totals.reusedChunkCount = (refs.filter (fun ref => !ref.newlyStored)).length
  size : totals.newStoredSize =
    ((refs.filter ChunkReferenceRecord.newlyStored).map ChunkReferenceRecord.storedSize).sum

theorem Counted.total (h : Counted totals refs) :
    totals.newChunkCount + totals.reusedChunkCount = refs.length := by
  rw [h.count, h.reused]
  exact (List.length_eq_length_filter_add ChunkReferenceRecord.newlyStored).symm

theorem Counted.chunk (h : Counted totals refs) (hroom : refs.length < maximumByteCount)
    (ht : countChunk totals ref = .ok totals') : Counted totals' (refs ++ [ref]) := by
  have htotal := h.total
  have hnew : increment totals.newChunkCount = totals.newChunkCount + 1 :=
    increment_room (by omega)
  have hreused : increment totals.reusedChunkCount = totals.reusedChunkCount + 1 :=
    increment_room (by omega)
  unfold countChunk at ht
  split at ht
  · rename_i hstored
    obtain ⟨size, hsize, ht⟩ := bind_ok.mp ht
    cases ht
    refine ⟨?_, ?_, ?_⟩
    · rw [hnew, h.count]
      simp [hstored]
    · simp [h.reused, hstored]
    · simp [addBytes_ok hsize, h.size, hstored]
  · rename_i hstored
    cases ht
    refine ⟨?_, ?_, ?_⟩
    · simp [h.count, hstored]
    · rw [hreused, h.reused]
      simp [hstored]
    · simp [h.size, hstored]

theorem Counted.entry (h : Counted totals refs) (type : EntryType) :
    Counted (countEntry totals type) refs := by
  cases type <;> exact ⟨h.count, h.reused, h.size⟩

/-- The counters that chunks leave alone. -/
structure SameEntries (totals totals' : SnapshotTotals) : Prop where
  files : totals'.fileCount = totals.fileCount
  directories : totals'.directoryCount = totals.directoryCount
  logicalSize : totals'.logicalSize = totals.logicalSize

theorem countChunk_entries (h : countChunk totals ref = .ok totals') : SameEntries totals totals' := by
  unfold countChunk at h
  split at h
  · obtain ⟨size, _, h⟩ := bind_ok.mp h
    cases h
    exact ⟨rfl, rfl, rfl⟩
  · cases h
    exact ⟨rfl, rfl, rfl⟩

section Referred

variable {id : Int}

theorem Referred.entries (h : Referred objects id mid totals refs db' totals') :
    SameEntries totals totals' := by
  induction h with
  | nil => exact ⟨rfl, rfl, rfl⟩
  | snoc ref now h hr ht ih =>
    have hsame := countChunk_entries ht
    exact ⟨hsame.files.trans ih.files, hsame.directories.trans ih.directories,
      hsame.logicalSize.trans ih.logicalSize⟩

/-- No chunk is empty, so a file has no more chunks than bytes. -/
theorem Referred.length_le (h : Referred objects id mid totals refs db' totals') :
    refs.length ≤ (refs.map ChunkReferenceRecord.rawSize).sum := by
  induction h with
  | nil => exact Nat.le_refl _
  | snoc ref now h hr ht ih =>
    have hlong := hr.long
    simp only [List.length_append, List.length_singleton, List.map_append, List.map_singleton,
      List.sum_append, List.sum_singleton]
    omega

theorem Referred.counted (h : Referred objects id mid totals refs db' totals')
    (hbefore : Counted totals before) (hroom : before.length + refs.length ≤ maximumByteCount) :
    Counted totals' (before ++ refs) := by
  induction h with
  | nil => rwa [List.append_nil]
  | snoc ref now h hr ht ih =>
    rw [List.length_append, List.length_singleton] at hroom
    rw [← List.append_assoc]
    apply (ih (by omega)).chunk _ ht
    rw [List.length_append]
    omega

end Referred

/-- There are no more references than logical bytes, whose counter is checked. -/
theorem Recorded.room (h : Recorded c objects db ps db' totals) (hp : ∀ p ∈ ps, Result c x p) :
    (references ps).length ≤ totals.logicalSize ∧ totals.logicalSize ≤ maximumByteCount := by
  induction h with
  | nil => exact ⟨Nat.le_refl _, Nat.zero_le _⟩
  | warning p w h hv hdb ih =>
    have hresult := hp p (List.mem_append_right _ (List.mem_singleton.mpr rfl))
    rw [references_append, hresult.no_chunks (fun e he => by rw [hv] at he; cases he),
      List.append_nil]
    exact ih (fun q hq => hp q (List.mem_append_left _ hq))
  | entry p e id h hv ht hdb ih =>
    have hresult := hp p (List.mem_append_right _ (List.mem_singleton.mpr rfl))
    rw [references_append,
      hresult.no_chunks (fun e' he => by rw [hv] at he; cases he; exact ht), List.append_nil]
    have hsame : ∀ totals : SnapshotTotals, (countEntry totals e.type).logicalSize =
        totals.logicalSize := fun _ => by cases e.type <;> rfl
    rw [hsame]
    exact ih (fun q hq => hp q (List.mem_append_left _ hq))
  | file p e id refs h hv ht hrefs hdb hr hh hmax ih =>
    have hbefore := ih (fun q hq => hp q (List.mem_append_left _ hq))
    have hresult := hp p (List.mem_append_right _ (List.mem_singleton.mpr rfl))
    have hsize := (hresult.file hv ht hrefs).1
    have hlength := hr.length_le
    rw [references_append, hrefs, Option.getD_some, List.length_append, hr.entries.logicalSize]
    change _ ≤ _ + e.logicalSize ∧ _ + e.logicalSize ≤ maximumByteCount
    omega

theorem Recorded.counted (h : Recorded c objects db ps db' totals) (hp : ∀ p ∈ ps, Result c x p) :
    Counted totals (references ps) := by
  induction h with
  | nil => exact ⟨rfl, rfl, rfl⟩
  | warning p w h hv hdb ih =>
    have hresult := hp p (List.mem_append_right _ (List.mem_singleton.mpr rfl))
    rw [references_append, hresult.no_chunks (fun e he => by rw [hv] at he; cases he),
      List.append_nil]
    exact ih (fun q hq => hp q (List.mem_append_left _ hq))
  | entry p e id h hv ht hdb ih =>
    have hresult := hp p (List.mem_append_right _ (List.mem_singleton.mpr rfl))
    rw [references_append,
      hresult.no_chunks (fun e' he => by rw [hv] at he; cases he; exact ht), List.append_nil]
    exact (ih (fun q hq => hp q (List.mem_append_left _ hq))).entry e.type
  | file p e id refs h hv ht hrefs hdb hr hh hmax ih =>
    have hsub : ∀ q ∈ _, Result c x q := fun q hq => hp q (List.mem_append_left _ hq)
    have hcounted := ih hsub
    have hroom := (h.room hsub).1
    have hresult := hp p (List.mem_append_right _ (List.mem_singleton.mpr rfl))
    have hsize := (hresult.file hv ht hrefs).1
    have hlength := hr.length_le
    rw [references_append, hrefs, Option.getD_some]
    refine hr.counted ⟨hcounted.count, hcounted.reused, hcounted.size⟩ ?_
    omega

end LocalVault.Snapshot
