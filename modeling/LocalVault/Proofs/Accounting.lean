import LocalVault.Proofs.Counters
import LocalVault.Proofs.Ledger
import LocalVault.Proofs.Sessions
import LocalVault.Snapshot.Engine

namespace LocalVault.Snapshot
open Library Repository

variable {c : Config} {x : Externals} {s t : State} {v : Vault} {objects : Objects}
  {db mid db' : Database} {refs : List ChunkReferenceRecord} {ref : ChunkReferenceRecord}
  {totals totals' : SnapshotTotals} {added : List ChunkRow}

/-- The rows that some references have added to the chunks table. -/
structure ChunksAdded (objects : Objects) (db db' : Database) (refs : List ChunkReferenceRecord)
    (added : List ChunkRow) : Prop where
  rows : db'.chunks = db.chunks ++ added
  distinct : (added.map ChunkRow.hash).Nodup
  absent : ∀ row ∈ added, ∀ k ∈ db.chunks, k.hash ≠ row.hash
  named : ∀ ref ∈ refs, ∃ row ∈ db.chunks ++ added, row.hash = ref.hashHex
  needed : ∀ row ∈ added, ∃ ref ∈ refs, ref.hashHex = row.hash
  sized : ∀ row ∈ added, ∀ ref ∈ refs, ref.hashHex = row.hash → row.compressedSize = ref.storedSize
  stored : ∀ ref ∈ refs, objects (derivedPath ref.hashHex) ≠ none

theorem ChunksAdded.same (h : ChunksAdded objects db mid refs added) (hc : db'.chunks = mid.chunks) :
    ChunksAdded objects db db' refs added :=
  ⟨hc.trans h.rows, h.distinct, h.absent, h.named, h.needed, h.sized, h.stored⟩

/-- The row of a reference is there already, or it is added. -/
theorem ChunkRecorded.adds {id now : Int} (hr : ChunkRecorded objects id ref now mid db')
    (h : ChunksAdded objects db mid refs added) :
    ∃ added', ChunksAdded objects db db' (refs ++ [ref]) added' := by
  obtain ⟨after, hensured, hafter⟩ := hr.ensured
  obtain ⟨row, hrow, _, hsize, _⟩ := hensured.row
  obtain ⟨content, hobject, _⟩ := hr.object
  have hchunks : db'.chunks = after.chunks := by rw [hafter]
  have hmember : row ∈ after.chunks ∧ row.hash = ref.hashHex := by
    have hmem : row ∈ after.chunks.filter (fun k => k.hash == ref.hashHex) := by
      rw [hrow]
      exact List.mem_singleton.mpr rfl
    simpa using hmem
  have honly : ∀ k ∈ after.chunks, k.hash = ref.hashHex → k = row := by
    intro k hk he
    have hmem : k ∈ after.chunks.filter (fun k => k.hash == ref.hashHex) := by
      simpa [he] using hk
    rw [hrow] at hmem
    exact List.mem_singleton.mp hmem
  have hstored : ∀ r ∈ refs ++ [ref], objects (derivedPath r.hashHex) ≠ none := by
    intro r hr
    rcases List.mem_append.mp hr with hr | hr
    · exact h.stored r hr
    · cases List.mem_singleton.mp hr
      rw [hobject]
      exact nofun
  rcases hensured.rows with rfl | ⟨hnew, hrows⟩
  · refine ⟨added, hchunks.trans h.rows, h.distinct, h.absent, ?_, ?_, ?_, hstored⟩
    · intro r hr
      rcases List.mem_append.mp hr with hr | hr
      · exact h.named r hr
      · cases List.mem_singleton.mp hr
        exact ⟨row, h.rows ▸ hmember.1, hmember.2⟩
    · intro k hk
      obtain ⟨r, hr, he⟩ := h.needed k hk
      exact ⟨r, List.mem_append_left _ hr, he⟩
    · intro k hk r hr he
      rcases List.mem_append.mp hr with hr | hr
      · exact h.sized k hk r hr he
      · cases List.mem_singleton.mp hr
        rw [honly k (h.rows ▸ List.mem_append_right _ hk) he.symm]
        exact hsize
  · have hmid : ∀ k ∈ db.chunks ++ added, k.hash ≠ ref.hashHex := by
      rw [← h.rows]
      exact hnew
    have hnow : after.chunks = db.chunks ++ (added ++
        [⟨ref.hashHex, ref.rawSize, ref.storedSize, derivedPath ref.hashHex, now⟩]) := by
      rw [hrows, h.rows, List.append_assoc]
    refine ⟨_, hchunks.trans hnow, ?_, ?_, ?_, ?_, ?_, hstored⟩
    · exact nodup_key_append h.distinct (fun k hk => hmid k (List.mem_append_right _ hk))
    · intro k hk
      rcases List.mem_append.mp hk with hk | hk
      · exact h.absent k hk
      · cases List.mem_singleton.mp hk
        exact fun k hk => hmid k (List.mem_append_left _ hk)
    · intro r hr
      rcases List.mem_append.mp hr with hr | hr
      · obtain ⟨k, hk, he⟩ := h.named r hr
        rw [← List.append_assoc]
        exact ⟨k, List.mem_append_left _ hk, he⟩
      · cases List.mem_singleton.mp hr
        exact ⟨row, hnow ▸ hmember.1, hmember.2⟩
    · intro k hk
      rcases List.mem_append.mp hk with hk | hk
      · obtain ⟨r, hr, he⟩ := h.needed k hk
        exact ⟨r, List.mem_append_left _ hr, he⟩
      · cases List.mem_singleton.mp hk
        exact ⟨ref, List.mem_append_right _ (List.mem_singleton.mpr rfl), rfl⟩
    · intro k hk r hr he
      rcases List.mem_append.mp hk with hk | hk
      · rcases List.mem_append.mp hr with hr | hr
        · exact h.sized k hk r hr he
        · cases List.mem_singleton.mp hr
          exact absurd he.symm (hmid k (List.mem_append_right _ hk))
      · cases List.mem_singleton.mp hk
        rcases List.mem_append.mp hr with hr | hr
        · -- an earlier reference to the hash would have left a row
          obtain ⟨k, hk, hk'⟩ := h.named r hr
          exact absurd (hk'.trans he) (hmid k hk)
        · cases List.mem_singleton.mp hr
          rfl

theorem Referred.adds {id : Int} {before : List ChunkReferenceRecord}
    (h : Referred objects id mid totals refs db' totals')
    (hbefore : ∃ rows, ChunksAdded objects db mid before rows) :
    ∃ rows, ChunksAdded objects db db' (before ++ refs) rows := by
  induction h with
  | nil => rwa [List.append_nil]
  | snoc ref now h hr ht ih =>
    obtain ⟨rows, hrows⟩ := ih
    rw [← List.append_assoc]
    exact hr.adds hrows

theorem Recorded.adds {ps : List ProcessedEntry} (h : Recorded c objects db ps db' totals)
    (hp : ∀ p ∈ ps, Result c x p) : ∃ rows, ChunksAdded objects db db' (references ps) rows := by
  induction h with
  | nil =>
    refine ⟨[], (List.append_nil _).symm, List.nodup_nil, ?_, ?_, ?_, ?_, ?_⟩
    · exact fun row hrow => absurd hrow List.not_mem_nil
    · exact fun ref href => absurd href List.not_mem_nil
    · exact fun row hrow => absurd hrow List.not_mem_nil
    · exact fun row hrow => absurd hrow List.not_mem_nil
    · exact fun ref href => absurd href List.not_mem_nil
  | warning p w h hv hdb ih =>
    obtain ⟨rows, hrows⟩ := ih (fun q hq => hp q (List.mem_append_left _ hq))
    have hresult := hp p (List.mem_append_right _ (List.mem_singleton.mpr rfl))
    rw [references_append, hresult.no_chunks (fun e he => by rw [hv] at he; cases he),
      List.append_nil]
    exact ⟨rows, hrows.same (by rw [insertWarning_returns hdb])⟩
  | entry p e id h hv ht hdb ih =>
    obtain ⟨rows, hrows⟩ := ih (fun q hq => hp q (List.mem_append_left _ hq))
    have hresult := hp p (List.mem_append_right _ (List.mem_singleton.mpr rfl))
    obtain ⟨_, _, _, _, hdb'⟩ := insertEntry_returns hdb
    rw [references_append,
      hresult.no_chunks (fun e' he => by rw [hv] at he; cases he; exact ht), List.append_nil]
    exact ⟨rows, hrows.same (by rw [hdb'])⟩
  | file p e id refs h hv ht hrefs hdb hr hh hmax ih =>
    obtain ⟨rows, hrows⟩ := ih (fun q hq => hp q (List.mem_append_left _ hq))
    obtain ⟨_, _, _, _, hbegun⟩ := insertEntry_returns hdb
    obtain ⟨_, _, hhashed⟩ := setRegularFileHash_returns hh
    obtain ⟨rows', hrows'⟩ := hr.adds ⟨rows, hrows.same (by rw [hbegun])⟩
    rw [references_append, hrefs]
    exact ⟨rows', hrows'.same (by rw [hhashed])⟩

/-- The row that publishes a snapshot counts the entries again and takes the
totals of the chunks as they are. -/
theorem markSnapshotComplete_returns {id : SnapshotId} {now : Int}
    (h : markSnapshotComplete id totals now db = (.ok (), db')) :
    let selected := fun s : SnapshotRow => s.id == id && s.status == .pending && !db.unhashed id
    (db.snapshots.filter selected).length = 1 ∧ db' = { db with
      snapshots := db.snapshots.map (fun s => if selected s then
        s.completed (countEntries db id .regularFile) (countEntries db id .directory)
          (countEntries db id .symbolicLink) (sumLogicalSize db id) totals.newStoredSize
          totals.newChunkCount totals.reusedChunkCount totals.durationMs now
        else s) } ∧
    countEntries db id .regularFile ≤ maximumInt64 ∧ countEntries db id .directory ≤ maximumInt64 ∧
      totals.newStoredSize ≤ maximumInt64 := by
  obtain ⟨final, w, hfinal, h⟩ := Program.bind_returns.mp h
  have htotals : db = w ∧ (final.logicalSize : Int) = sumLogicalSize db id ∧ final = { totals with
      fileCount := countEntries db id .regularFile
      directoryCount := countEntries db id .directory
      symlinkCount := countEntries db id .symbolicLink
      logicalSize := final.logicalSize } := by
    unfold finalTotals at hfinal
    split at hfinal
    · cases hfinal
    · obtain ⟨hok, rfl⟩ := Program.ofExcept_returns.mp hfinal
      obtain ⟨size, hsize, hok⟩ := bind_ok.mp hok
      cases hok
      exact ⟨rfl, (checkedByteCount_ok hsize).symm, rfl⟩
  obtain ⟨rfl, hsize, hfinal'⟩ := htotals
  obtain ⟨fileCount, w, hrun, h⟩ := Program.bind_returns.mp h
  obtain ⟨hfile, rfl⟩ := Program.ofExcept_returns.mp hrun
  obtain ⟨rfl, hfiles⟩ := checkedInt64_ok hfile
  obtain ⟨directoryCount, w, hrun, h⟩ := Program.bind_returns.mp h
  obtain ⟨hdirectory, rfl⟩ := Program.ofExcept_returns.mp hrun
  obtain ⟨rfl, hdirectories⟩ := checkedInt64_ok hdirectory
  obtain ⟨symlinkCount, w, hrun, h⟩ := Program.bind_returns.mp h
  obtain ⟨hsymlink, rfl⟩ := Program.ofExcept_returns.mp hrun
  obtain ⟨rfl, _⟩ := checkedInt64_ok hsymlink
  obtain ⟨logicalSize, w, hrun, h⟩ := Program.bind_returns.mp h
  obtain ⟨hlogical, rfl⟩ := Program.ofExcept_returns.mp hrun
  obtain ⟨rfl, _⟩ := checkedInt64_ok hlogical
  obtain ⟨storedSize, w, hrun, h⟩ := Program.bind_returns.mp h
  obtain ⟨hstored, rfl⟩ := Program.ofExcept_returns.mp hrun
  obtain ⟨rfl, hstoredSize⟩ := checkedInt64_ok hstored
  obtain ⟨newCount, w, hrun, h⟩ := Program.bind_returns.mp h
  obtain ⟨hnew, rfl⟩ := Program.ofExcept_returns.mp hrun
  obtain ⟨rfl, _⟩ := checkedInt64_ok hnew
  obtain ⟨reusedCount, w, hrun, h⟩ := Program.bind_returns.mp h
  obtain ⟨hreused, rfl⟩ := Program.ofExcept_returns.mp hrun
  obtain ⟨rfl, _⟩ := checkedInt64_ok hreused
  obtain ⟨tables, w, hread, h⟩ := Program.bind_returns.mp h
  cases hread
  obtain ⟨updated, w, hupdate, h⟩ := Program.bind_returns.mp h
  obtain ⟨hone, rfl⟩ := requireSingle_returns h
  unfold updateSnapshots at hupdate
  simp only [Prod.mk.injEq, Except.ok.injEq] at hupdate
  obtain ⟨rfl, rfl⟩ := hupdate
  rw [← hsize]
  generalize final.logicalSize = size at hfinal' ⊢
  subst hfinal'
  exact ⟨hone, rfl, hfiles, hdirectories, hstoredSize⟩

/-- No chunk of a recorded file was published by an attempt that was given up, or
was an object without a row, or a row without an object, before the call. -/
def Unspoilt (v : Vault) (handled : List ProcessedEntry) : Prop :=
  ∀ ref ∈ references handled,
    if v.db.chunks.any (fun k => k.hash == ref.hashHex) then
      v.objects (derivedPath ref.hashHex) ≠ none
    else v.objects (derivedPath ref.hashHex) = none ∧
      ∀ p ∈ handled, ∀ lost ∈ discarded p.failures, fresh ref.hashHex lost = false

instance {handled : List ProcessedEntry} : Decidable (Unspoilt v handled) :=
  inferInstanceAs (Decidable (∀ ref ∈ references handled, _))

theorem spools_countP {hash : Bytes} (ps : List ProcessedEntry) :
    (ps.flatMap ProcessedEntry.spools).countP (fresh hash) =
      (references ps).countP (fresh hash) +
        (ps.flatMap (fun p => discarded p.failures)).countP (fresh hash) := by
  induction ps with
  | nil => rfl
  | cons p ps ih =>
    simp only [references, List.flatMap_cons, List.countP_append, ProcessedEntry.spools] at ih ⊢
    omega

/-- Where nothing was spoilt, the references that published an object are the
new rows. -/
theorem ChunksAdded.fresh_rows {handled : List ProcessedEntry}
    (h : ChunksAdded objects v.db db' (references handled) added) (hu : Unspoilt v handled)
    (hnew : ∀ hash, (handled.flatMap ProcessedEntry.spools).countP (fresh hash) =
      novelty v.objects objects hash) :
    (((references handled).filter ChunkReferenceRecord.newlyStored).map
      ChunkReferenceRecord.hashHex).Perm (added.map ChunkRow.hash) := by
  rw [List.perm_iff_count]
  intro hash
  have hcount : (((references handled).filter ChunkReferenceRecord.newlyStored).map
      ChunkReferenceRecord.hashHex).count hash = (references handled).countP (fresh hash) := by
    rw [List.count, List.countP_map, List.countP_filter]
    congr 1
    funext ref
    simp [fresh, Bool.and_comm]
  have htotal := hnew hash
  rw [spools_countP] at htotal
  rw [hcount]
  by_cases hrow : hash ∈ added.map ChunkRow.hash
  · rw [List.count_eq_one_of_mem h.distinct hrow]
    obtain ⟨row, hmem, rfl⟩ := List.mem_map.mp hrow
    obtain ⟨ref, href, he⟩ := h.needed row hmem
    have hclean := hu ref href
    rw [he, if_neg (by simpa using h.absent row hmem)] at hclean
    have hlost : (handled.flatMap (fun p => discarded p.failures)).countP (fresh row.hash) = 0 := by
      rw [List.countP_eq_zero]
      intro lost hl
      obtain ⟨p, hp, hl⟩ := List.mem_flatMap.mp hl
      rw [hclean.2 p hp lost hl]
      exact Bool.false_ne_true
    have hone : novelty v.objects objects row.hash = 1 :=
      if_pos ⟨hclean.1, he ▸ h.stored ref href⟩
    omega
  · rw [List.count_eq_zero_of_not_mem hrow, List.countP_eq_zero]
    intro ref href hfresh
    obtain ⟨hnewly, hhash⟩ := Bool.and_eq_true_iff.mp hfresh
    have hhash : ref.hashHex = hash := by simpa using hhash
    have hpositive : 0 < (references handled).countP (fresh hash) :=
      List.countP_pos_iff.mpr ⟨ref, href, hfresh⟩
    have hnone : v.objects (derivedPath hash) = none := by
      by_contra hsome
      have hzero : novelty v.objects objects hash = 0 := if_neg (fun hboth => hsome hboth.1)
      omega
    obtain ⟨row, hmem, he⟩ := h.named ref href
    rcases List.mem_append.mp hmem with hmem | hmem
    · have hclean := hu ref href
      rw [if_pos (List.any_eq_true.mpr ⟨row, hmem, by simpa using he⟩), hhash] at hclean
      exact hclean hnone
    · exact hrow (List.mem_map.mpr ⟨row, hmem, he.trans hhash⟩)

/-- A schedule with impossible steps is one without them. -/
theorem follow_sublist (ls : List Label) (s : State) :
    ∃ ls', ls'.Sublist ls ∧ run c x s ls' = some (follow c x s ls) := by
  induction ls generalizing s with
  | nil => exact ⟨[], .slnil, rfl⟩
  | cons l ls ih =>
    cases hstep : step c x s l with
    | none =>
      obtain ⟨ls', hsub, h⟩ := ih s
      refine ⟨ls', hsub.cons l, ?_⟩
      rw [h, follow, hstep]
      rfl
    | some t =>
      obtain ⟨ls', hsub, h⟩ := ih t
      refine ⟨l :: ls', hsub.cons₂ l, ?_⟩
      rw [follow, hstep, run, hstep]
      exact h

theorem follow_run (ls : List Label) (s : State) : ∃ ls', run c x s ls' = some (follow c x s ls) :=
  (follow_sublist ls s).imp fun _ h => h.2

/-- A call that returns has published its snapshot. -/
theorem createSnapshot_returns {o : Outside} {r : Opened} {engine : Engine} {call : Call}
    {before begun after : Session} {result : SnapshotResult}
    (hopen : openSnapshot o r engine call before = (.ok c, begun))
    (h : createSnapshot o r x engine call before = (.ok result, after)) :
    (call.final x c begun.vault).main = .published ∧
      result = (call.final x c begun.vault).result c ∧
      after.vault.db = (call.final x c begun.vault).vault.db := by
  obtain ⟨c', u, hopen', h⟩ := Program.bind_returns.mp h
  cases hopen.symm.trans hopen'
  unfold Program.rescue at h
  rcases hp : pipeline x c call begun with ⟨result', t⟩
  rw [hp] at h
  unfold pipeline at hp
  simp only at hp h
  cases result' with
  | ok r =>
    cases h
    split at hp
    · cases hp
      exact ⟨‹_›, rfl, rfl⟩
    · cases hp
    · cases hp
  | error stop =>
    cases stop with
    | raised e =>
      obtain ⟨_, _, _, h⟩ := Program.bind_returns.mp h
      cases h
    | died => cases h
    | endless => cases h

/-- Opening a snapshot leaves the chunks and their objects alone. -/
theorem openSnapshot_chunks {o : Outside} {r : Opened} {engine : Engine} {call : Call}
    {before begun : Session} (h : openSnapshot o r engine call before = (.ok c, begun)) :
    begun.vault.db.chunks = before.vault.db.chunks ∧ begun.vault.objects = before.vault.objects := by
  have hkeeps : Program.Maintains (Keeps (ChunksAre before.vault.db.chunks) before.vault.objects)
      (openSnapshot o r engine call) := by
    refine Program.Maintains.bind ?_ (fun _ => Program.Maintains.bind
      (keeps_recoverAfterWriterLock chunksAre_withstands) (fun _ => Program.Maintains.bind (Program.Maintains.read _) (fun _ => ?_)))
    · refine Program.Maintains.ite (fun _ => keeps_throwing _) (fun _ => ?_)
      refine Program.Maintains.ite (fun _ => keeps_throwing _) (fun _ => ?_)
      exact keeps_calling (keeps_temporary (fun _ => ⟨rfl, rfl⟩))
        (keeps_temporary (fun _ => ⟨rfl, rfl⟩))
    · refine Program.Maintains.bind (keeps_transaction ?_) (fun _ => Program.Maintains.pure _)
      refine Program.Maintains.bind (Program.Maintains.ite (fun _ => Program.Maintains.raise _)
        (fun _ => Program.Maintains.pure _)) (fun _ => ?_)
      exact fun _ h => h
  have hkept := hkeeps before ⟨rfl, rfl⟩
  unfold Program.wp at hkept
  rw [h] at hkept
  exact hkept

/-- Where no chunk was spoilt, the new chunks a snapshot reports are the rows it
has added to the chunks table. -/
theorem snapshot_new_chunks {o : Outside} {r : Opened} {engine : Engine} {call : Call}
    {before begun after : Session} {result : SnapshotResult}
    (hopen : openSnapshot o r engine call before = (.ok c, begun))
    (h : createSnapshot o r x engine call before = (.ok result, after))
    (hu : Unspoilt before.vault (call.final x c begun.vault).handled) :
    ∃ added, after.vault.db.chunks = before.vault.db.chunks ++ added ∧
      result.newChunks = added.length ∧
      result.newStoredBytes = (added.map ChunkRow.compressedSize).sum ∧
      ∃ row ∈ after.vault.db.snapshots, row.id = result.snapshotId ∧ row.status = .complete ∧
        row.newChunkCount = result.newChunks ∧ row.newStoredSize = result.newStoredBytes := by
  obtain ⟨hpublished, rfl, hdb⟩ := createSnapshot_returns hopen h
  obtain ⟨hchunks, hobjects⟩ := openSnapshot_chunks hopen
  obtain ⟨ls, hrun⟩ := follow_run (c := c) (x := x) call.schedule
    (State.start c begun.vault call.externalStop)
  change run c x _ ls = some (call.final x c begun.vault) at hrun
  generalize call.final x c begun.vault = t at *
  have hu : Unspoilt begun.vault t.handled := by
    unfold Unspoilt at hu ⊢
    rwa [hchunks, hobjects]
  have hsettles : t.main.settles = true := by rw [hpublished]; rfl
  obtain ⟨committed, now, hrecorded, hcomplete⟩ := run_published hrun hpublished
  obtain ⟨added, hadded⟩ := hrecorded.adds (run_results hrun).handled
  have hcounted := hrecorded.counted (run_results hrun).handled
  have hperm := hadded.fresh_rows hu (run_novelty hrun hsettles)
  obtain ⟨hone, hfinal, _⟩ := markSnapshotComplete_returns hcomplete
  refine ⟨added, ?_, ?_, ?_, ?_⟩
  · rw [hdb, hfinal, ← hchunks]
    exact hadded.rows
  · have hlength := hperm.length_eq
    rw [List.length_map, List.length_map, ← hcounted.count] at hlength
    exact hlength
  · have hvalue : ∀ ref ∈ (references t.handled).filter ChunkReferenceRecord.newlyStored,
        ∀ row ∈ added, ref.hashHex = row.hash → (ref.storedSize : Int) = row.compressedSize :=
      fun ref href row hrow he => (hadded.sized row hrow ref (List.mem_of_mem_filter href) he).symm
    have hsum := sum_by_key hperm hadded.distinct hvalue
    rw [← hsum]
    change (t.counts.newStoredSize : Int) = _
    rw [hcounted.size, Nat.cast_list_sum, List.map_map]
    rfl
  · obtain ⟨row, hrow⟩ := List.length_eq_one_iff.mp hone
    have hmem : row ∈ committed.snapshots.filter _ := hrow ▸ List.mem_singleton.mpr rfl
    obtain ⟨hmem, hselected⟩ := List.mem_filter.mp hmem
    rw [hdb, hfinal]
    refine ⟨_, List.mem_map.mpr ⟨row, hmem, rfl⟩, ?_⟩
    rw [if_pos hselected]
    simp only [Bool.and_eq_true, beq_iff_eq] at hselected
    exact ⟨hselected.1.1, rfl, rfl, rfl⟩

def sampleEngine : Engine := ⟨4, 1, 1, 1024, 500, 1024, 0⟩

def sampleOpened : Opened := ⟨[ascii "r"], .readWrite, 500⟩

/-- Nothing fails, and the clock counts the calls. -/
def sampleOutside : Outside := ⟨fun _ => .done, fun n => n⟩

def sampleSession : Session :=
  .start ⟨.empty, fun _ => none, [⟨temporaryObjects, true⟩, ⟨temporaryRestores, true⟩]⟩

/-- The threads after the last attempt, up to the published snapshot. -/
def sampleEnd : List Label :=
  [.worker 0 .next, .writer .next, .writer .next, .writer .next, .writer (.ticks 1), .writer .next,
    .scanner .next, .scanner .next, .worker 0 .next, .worker 0 .next, .worker 0 .next, .writer .next,
    .writer .next, .writer .next, .main .next, .main .next, .main .next, .progress .next, .main .next,
    .main .next, .main .next, .main (.ticks 5), .main .next, .main .next, .main (.ticks 6)]

def sampleCall (attempts : List Label) : Call :=
  { source := [ascii "s"], sourceUtf8 := ascii "/s", options := ⟨"", 1, true⟩, cores := 1
    scan := [.entry sampleEntry], scanError := none, cancelled := false, externalStop := false
    schedule := sampleStart ++ attempts ++ sampleEnd, leftovers := [] }

/-- A file that does not change. -/
def steadyCall : Call :=
  sampleCall (sampleAttempt ⟨3, 1, 1, 1, 1, 0o100644⟩ ⟨3, 1, 1, 1, 1, 0o100644⟩ 3)

/-- A file that is touched while it is read for the first time. -/
def touchedCall : Call :=
  sampleCall (sampleAttempt ⟨3, 1, 1, 1, 1, 0o100644⟩ ⟨3, 2, 2, 1, 1, 0o100644⟩ 3 ++
    sampleAttempt ⟨3, 2, 2, 1, 1, 0o100644⟩ ⟨3, 2, 2, 1, 1, 0o100644⟩ 1)

theorem snapshot_new_chunks_steady : ∃ c begun result after added,
    openSnapshot sampleOutside sampleOpened sampleEngine steadyCall sampleSession = (.ok c, begun) ∧
    createSnapshot sampleOutside sampleOpened sampleExternals sampleEngine steadyCall sampleSession =
      (.ok result, after) ∧
    after.vault.db.chunks = sampleSession.vault.db.chunks ++ added ∧
    result.newChunks = added.length ∧ added.length = 1 := by
  have hrun : gives (fun c begun => gives (fun result _ => result.newChunks == 1 && decide (Unspoilt
          sampleSession.vault (steadyCall.final sampleExternals c begun.vault).handled))
        (createSnapshot sampleOutside sampleOpened sampleExternals sampleEngine steadyCall
          sampleSession))
      (openSnapshot sampleOutside sampleOpened sampleEngine steadyCall sampleSession) = true := by
    decide +kernel
  obtain ⟨c, begun, hopen, hrun⟩ := gives_iff.mp hrun
  obtain ⟨result, after, hcreate, hcounts⟩ := gives_iff.mp hrun
  simp only [Bool.and_eq_true, beq_iff_eq, decide_eq_true_eq] at hcounts
  obtain ⟨added, hrows, hcount, _⟩ := snapshot_new_chunks hopen hcreate hcounts.2
  exact ⟨c, begun, result, after, added, hopen, hcreate, hrows, hcount,
    hcount.symm.trans hcounts.1⟩

/-- The object of a file that is read twice is published by the first attempt.
The reference of the second one says that it was there already, and the new row
is counted nowhere. -/
theorem snapshot_new_chunks_retried : ∃ result after,
    createSnapshot sampleOutside sampleOpened sampleExternals sampleEngine touchedCall sampleSession =
      (.ok result, after) ∧
    sampleSession.vault.db.chunks = [] ∧ after.vault.db.chunks.map ChunkRow.compressedSize = [12] ∧
    result.newChunks = 0 ∧ result.newStoredBytes = 0 ∧ result.reusedChunks = 1 := by
  have hrun : gives (fun result after => after.vault.db.chunks.map ChunkRow.compressedSize == [12] &&
        result.newChunks == 0 && result.newStoredBytes == 0 && result.reusedChunks == 1)
      (createSnapshot sampleOutside sampleOpened sampleExternals sampleEngine touchedCall
        sampleSession) = true := by
    decide +kernel
  obtain ⟨result, after, hcreate, hcounts⟩ := gives_iff.mp hrun
  simp only [Bool.and_eq_true, beq_iff_eq] at hcounts
  exact ⟨result, after, hcreate, rfl, hcounts.1.1.1, hcounts.1.1.2, hcounts.1.2, hcounts.2⟩

end LocalVault.Snapshot
