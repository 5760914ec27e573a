import LocalVault.Proofs.Captured
import LocalVault.Proofs.Drafts
import LocalVault.Proofs.Handing
import LocalVault.Proofs.Lossless

namespace LocalVault.Snapshot
open Library Repository

variable {c : Config} {x : Externals} {w u : Observed} {s t : State} {turns : List Turn} {v : Vault}
  {e : Bool} {now : Int} {objects : Objects} {db db' : Database} {ps : List ProcessedEntry}
  {totals : SnapshotTotals} {k : Counter}

theorem run_handed (h : (Observed.start c v e now).run c x turns = some w)
    (hc : Clean c w.pipeline) : Handed c w := by
  have hall := observed_invariant
    (P := fun w => Observes c x v e w ∧ Seated w ∧ (Clean c w.pipeline → Handed c w))
    (fun w turn u hw hstep => ?_) ⟨observes_start, seated_start, fun _ => handed_start⟩ h
  · exact hall.2.2 hc
  · obtain ⟨ho, hseat, hhanded⟩ := hw
    have hcounts := (step_happens hstep).counts ho.placed
    refine ⟨ho.step hstep, hcounts.seated hseat, fun hu => ?_⟩
    have hclean : Clean c w.pipeline := by
      rcases step_follows hstep with he | ⟨l, hl⟩
      · rwa [he] at hu
      · exact (step_move hl).clean ho.placed.orderly hu
    exact hcounts.handed hseat hclean hu (hhanded hclean)

/-- What was recorded of the entries is what the writer has handled of them. -/
theorem run_recorded (h : (Observed.start c v e now).run c x turns = some w)
    (hm : w.pipeline.main.settles = true) :
    (w.recorded.filter (fun p => p.value.isEntry)).Perm
      (w.pipeline.handled.filter (fun p => p.value.isEntry)) := by
  obtain ⟨ls, hrun⟩ := (run_observes h).reached
  have hended := (run_orderly hrun).ended hm
  refine List.perm_iff_count.mpr fun p => ?_
  cases hv : p.value with
  | warning n =>
    have hnone : ∀ l : List ProcessedEntry, (l.filter (fun p => p.value.isEntry)).count p = 0 :=
      fun l => List.count_eq_zero.mpr fun hmem => by
        have hentry := List.of_mem_filter hmem
        rw [hv] at hentry
        cases hentry
    rw [hnone, hnone]
  | entry entry =>
    have hentry : p.value.isEntry = true := by rw [hv]; rfl
    rw [List.count_filter (p := fun p : ProcessedEntry => p.value.isEntry) hentry,
      List.count_filter (p := fun p : ProcessedEntry => p.value.isEntry) hentry, run_given hrun hm p,
      run_handed h hended.clean p entry hv]
    have hnone : ∀ i, i < c.workerCount → (w.holding i).toList.count p = 0 := fun i hi => by
      rw [holding_none (by rw [hended.workers i hi]; exact fun _ => nofun)]
      rfl
    unfold pooled
    refine Finset.sum_congr rfl fun i hi => ?_
    dsimp only
    rw [hnone i (Finset.mem_range.mp hi), Nat.add_zero]

/-- The warnings add nothing. -/
theorem sum_captured (l : List ProcessedEntry) (k : Counter) :
    (l.map (fun p => amount p.additions k)).sum =
      ((l.filter (fun p => p.value.isEntry)).map (fun p => amount p.additions k)).sum := by
  induction l with
  | nil => rfl
  | cons p l ih =>
    cases hv : p.value with
    | entry entry =>
      rw [List.filter_cons_of_pos (by rw [hv]; rfl), List.map_cons, List.map_cons, List.sum_cons,
        List.sum_cons, ih]
    | warning n =>
      have hzero : amount p.additions k = 0 := by
        unfold ProcessedEntry.additions
        rw [hv]
        rfl
      rw [List.filter_cons_of_neg (by rw [hv]; exact nofun), List.map_cons, List.sum_cons, ih, hzero,
        Nat.zero_add]

/-- Behind the threads the counters are the sums over the records. -/
theorem run_processed (h : (Observed.start c v e now).run c x turns = some w)
    (hm : w.pipeline.main.settles = true) (hk : k.discovers = false) :
    w.aggregator.counters k = (w.pipeline.handled.map (fun p => amount p.additions k)).sum := by
  have ha := run_accounts h
  have hended := (run_observes h).placed.orderly.ended hm
  have hfailed := hended.clean.not_failed
  have hcredit := ha.balanced.credit k
  have hfound : (w.found.map (fun e => amount (discovery e) k)).sum = 0 :=
    sum_map_zero _ _ fun e _ => discovery_amount hk e
  have hpool : pooled c.workerCount (fun i => (w.workers i).pending k) = 0 := by
    refine pooled_eq_zero.mpr fun i hi => ?_
    have hidle : w.workers i = .idle := by
      by_contra hbusy
      have hseat := ha.seated.workers i hbusy
      simp [hended.workers i hi, hfailed] at hseat
    rw [hidle]
    rfl
  unfold Observed.credit at hcredit
  rw [hfound, hpool, ha.balanced.scanner k hk, sum_captured w.recorded,
    ((run_recorded h hm).map _).sum_eq, ← sum_captured] at hcredit
  omega

theorem amount_entry {p : ProcessedEntry} {entry : ScannedEntry} (hv : p.value = .entry entry) :
    amount p.additions k = amount (processing p entry) k := by
  rw [additions_entry hv]

theorem amount_warning {p : ProcessedEntry} {n : ScanWarning} (hv : p.value = .warning n) :
    amount p.additions k = 0 := by
  unfold ProcessedEntry.additions
  rw [hv]
  rfl

theorem sum_snoc {α : Type} (l : List α) (a : α) (f : α → Nat) :
    ((l ++ [a]).map f).sum = (l.map f).sum + f a := by
  rw [List.map_append, List.sum_append, List.map_singleton, List.sum_singleton]

/-- The entries that the writer has counted. -/
def entryCount (totals : SnapshotTotals) : Nat :=
  totals.fileCount + totals.directoryCount + totals.symlinkCount

theorem countEntry_count (type : EntryType) (h : entryCount totals < maximumByteCount) :
    entryCount (countEntry totals type) = entryCount totals + 1 := by
  unfold entryCount at h ⊢
  cases type with
  | directory =>
    change totals.fileCount + increment totals.directoryCount + totals.symlinkCount = _
    rw [increment_room (by omega)]
    omega
  | symbolicLink =>
    change totals.fileCount + totals.directoryCount + increment totals.symlinkCount = _
    rw [increment_room (by omega)]
    omega
  | regularFile =>
    change increment totals.fileCount + totals.directoryCount + totals.symlinkCount = _
    rw [increment_room (by omega)]
    omega

theorem Referred.counts_entries {id : Int} {mid : Database} {totals' : SnapshotTotals}
    {refs : List ChunkReferenceRecord} (h : Referred objects id mid totals refs db' totals') :
    entryCount totals' = entryCount totals := by
  induction h with
  | nil => rfl
  | snoc ref now h hr ht ih =>
    rw [← ih]
    unfold countChunk at ht
    split at ht
    · obtain ⟨size, -, ht⟩ := bind_ok.mp ht
      cases ht
      rfl
    · cases ht
      rfl

/-- The counters of the writer count the records that are entries. -/
theorem Recorded.counts_entries (h : Recorded c objects db ps db' totals)
    (hroom : (ps.map (fun p => amount p.additions .processedEntries)).sum ≤ maximumByteCount) :
    entryCount totals = (ps.map (fun p => amount p.additions .processedEntries)).sum := by
  induction h with
  | nil => rfl
  | warning p n h hv hdb ih =>
    rw [sum_snoc, amount_warning hv] at hroom ⊢
    exact ih hroom
  | entry p entry id h hv ht hdb ih =>
    rw [sum_snoc, amount_entry hv] at hroom ⊢
    change _ + 1 ≤ _ at hroom
    have hbefore := ih (by omega)
    rw [countEntry_count _ (by omega), hbefore]
    rfl
  | file p entry id refs h hv ht hrefs hdb hr hh hmax ih =>
    rw [sum_snoc, amount_entry hv] at hroom ⊢
    change _ + 1 ≤ _ at hroom
    have hbefore := ih (by omega)
    rw [hr.counts_entries]
    change entryCount (countEntry _ .regularFile) = _
    rw [countEntry_count _ (by omega), hbefore]
    rfl

/-- The logical size is the sum over the records, as only files have a size. -/
theorem Recorded.logicalSize (h : Recorded c objects db ps db' totals)
    (hsized : ∀ p ∈ ps, p.value.Sized) :
    totals.logicalSize = (ps.map (fun p => amount p.additions .processedBytes)).sum := by
  induction h with
  | nil => rfl
  | warning p n h hv hdb ih =>
    rw [sum_snoc, amount_warning hv]
    exact ih fun q hq => hsized q (List.mem_append_left _ hq)
  | entry p entry id h hv ht hdb ih =>
    have hbefore := ih fun q hq => hsized q (List.mem_append_left _ hq)
    have hzero := hsized p (List.mem_append_right _ (List.mem_singleton.mpr rfl))
    rw [hv] at hzero
    have hsame : ∀ totals : SnapshotTotals, (countEntry totals entry.type).logicalSize =
        totals.logicalSize := fun _ => by cases entry.type <;> rfl
    have hamount : amount (processing p entry) .processedBytes = entry.logicalSize := rfl
    rw [sum_snoc, amount_entry hv, hsame, hbefore, hamount, hzero ht, Nat.add_zero]
  | file p entry id refs h hv ht hrefs hdb hr hh hmax ih =>
    have hbefore := ih fun q hq => hsized q (List.mem_append_left _ hq)
    rw [sum_snoc, amount_entry hv, hr.entries.logicalSize, ← hbefore]
    rfl

/-- What a result adds to the counters of chunks are its references. -/
theorem Result.chunks {p : ProcessedEntry} (h : Result c x p) (ht : p.Tallied) :
    amount p.additions .newChunks =
        ((p.chunkReferences.getD []).filter ChunkReferenceRecord.newlyStored).length ∧
      amount p.additions .reusedChunks =
        ((p.chunkReferences.getD []).filter (fun ref => !ref.newlyStored)).length := by
  cases hv : p.value with
  | warning n =>
    rw [amount_warning hv, amount_warning hv,
      h.no_chunks fun e he => by rw [hv] at he; cases he]
    exact ⟨rfl, rfl⟩
  | entry entry =>
    rw [amount_entry hv, amount_entry hv]
    have hcount : p.chunkCount = (p.chunkReferences.getD []).length := by
      cases h with
      | passed hj hp =>
        rw [hp]
        rfl
      | stored e' a refs ho ht' ha hv' hsame hrefs hspool hsize hhash hcount htries hsource =>
        rw [hrefs]
        exact hcount
      | unread e' n ho ht' hv' hpath hrefs ha htries hsource => cases hv.symm.trans hv'
    have hsplit := List.length_eq_length_filter_add ChunkReferenceRecord.newlyStored
      (l := p.chunkReferences.getD [])
    change p.newChunkCount = _ ∧ p.chunkCount - p.newChunkCount = _
    unfold ProcessedEntry.Tallied at ht
    omega

theorem references_filter (ps : List ProcessedEntry) (q : ChunkReferenceRecord → Bool) :
    ((references ps).filter q).length =
      (ps.map (fun p => ((p.chunkReferences.getD []).filter q).length)).sum := by
  induction ps with
  | nil => rfl
  | cons p ps ih =>
    unfold references at ih ⊢
    rw [List.flatMap_cons, List.filter_append, List.length_append, ih, List.map_cons, List.sum_cons]

theorem lookup_none {field : Field} {loaded : List (Field × Nat)}
    (h : field ∉ loaded.map Prod.fst) : loaded.lookup field = none := by
  cases hl : loaded.lookup field with
  | none => rfl
  | some value => exact absurd (List.mem_map.mpr ⟨_, lookup_mem hl, rfl⟩) h

/-- An event that has not seen the scan complete has no totals. -/
theorem Draft.Seen.untotalled {d : Draft} (h : d.Seen w) (hn : d.complete ≠ some true) :
    d.event.totalEntries = none ∧ d.event.totalBytes = none := by
  have hloaded : d.loaded.map Prod.fst <+: loads false := by
    cases hc : d.complete with
    | none =>
      rw [h.unflagged hc]
      exact List.nil_prefix
    | some done =>
      cases done with
      | false => exact h.order false hc
      | true => exact absurd hc hn
  exact ⟨lookup_none fun hmem => absurd (hloaded.subset hmem) (by decide),
    lookup_none fun hmem => absurd (hloaded.subset hmem) (by decide)⟩

/-- An event that was delivered has either the totals, and has seen the scan complete, or none. -/
theorem Viewed.totalled (h : Viewed w) {d : Delivery} (hd : d ∈ w.delivered) :
    d.draft.complete = some true ∧ d.draft.event.totalEntries.isSome = true ∧
        d.draft.event.totalBytes.isSome = true ∨
      d.draft.complete = some false ∧ d.draft.event.totalEntries = none ∧
        d.draft.event.totalBytes = none := by
  obtain ⟨done, hdone, hloaded⟩ := h.through d hd
  cases done with
  | false =>
    have hnone := (h.seen d.draft (Viewed.mem_drafts hd)).untotalled (by rw [hdone]; exact nofun)
    exact .inr ⟨hdone, hnone⟩
  | true =>
    have hsome : ∀ field ∈ loads true, (d.draft.loaded.lookup field).isSome = true := by
      intro field hfield
      rw [← hloaded] at hfield
      obtain ⟨value, hvalue⟩ := lookup_some hfield
      rw [hvalue]
      rfl
    exact .inl ⟨hdone, hsome .totalEntries (by decide), hsome .totalBytes (by decide)⟩

/-- One event is at most as far as another. -/
structure ProgressEvent.Behind (event later : ProgressEvent) : Prop where
  discoveredEntries : event.discoveredEntries ≤ later.discoveredEntries
  processedEntries : event.processedEntries ≤ later.processedEntries
  processedBytes : event.processedBytes ≤ later.processedBytes
  newChunks : event.newChunks ≤ later.newChunks
  reusedChunks : event.reusedChunks ≤ later.reusedChunks
  totalEntries : event.totalEntries.isSome = true → later.totalEntries.isSome = true
  totalBytes : event.totalBytes.isSome = true → later.totalBytes.isSome = true

theorem Viewed.monotone (h : Viewed w) :
    w.delivered.Pairwise (fun d e => d.draft.event.Behind e.draft.event) := by
  refine h.earlier.imp fun {d e} ⟨hd, he, hearlier⟩ => ?_
  have hvalue : ∀ field ∈ loads false, d.draft.value field ≤ e.draft.value field :=
    fun field hfield => hearlier.values _ (h.value hd hfield) _ (h.value he hfield) rfl
  have htotals : d.draft.complete = some true → e.draft.event.totalEntries.isSome = true ∧
      e.draft.event.totalBytes.isSome = true := by
    intro hc
    rcases h.totalled he with ⟨-, hsome⟩ | ⟨hfalse, -⟩
    · exact hsome
    · exact absurd hfalse (hearlier.complete hc)
  refine ⟨hvalue _ (by decide), hvalue _ (by decide), hvalue _ (by decide), hvalue _ (by decide),
    hvalue _ (by decide), fun hs => ?_, fun hs => ?_⟩
  · rcases h.totalled hd with ⟨hc, -⟩ | ⟨-, hnone, -⟩
    · exact (htotals hc).1
    · rw [hnone] at hs
      cases hs
  · rcases h.totalled hd with ⟨hc, -⟩ | ⟨-, -, hnone⟩
    · exact (htotals hc).2
    · rw [hnone] at hs
      cases hs

/-- The totals are those of all entries of the scan. -/
theorem Accounts.total (h : Accounts c w) {d : Delivery} (hd : d ∈ w.delivered) (field : Field)
    {n : Nat} (hfield : field ∉ loads false) (hk : field.counter.discovers = true)
    (hn : d.draft.loaded.lookup field = some n) :
    n = ((scannedIn c.scan).map (fun e => amount (discovery e) field.counter)).sum := by
  obtain ⟨hcomplete, hmem⟩ := h.viewed.total hd field hfield hn
  have hseen := h.viewed.seen d.draft (Viewed.mem_drafts hd)
  exact (hseen.exact hcomplete _ hmem hk).trans
    (h.balanced.discovered h.found (hseen.scanned hcomplete) hk)

/-- What a successful call reports at last. -/
structure Completed (c : Config) (w : Observed) (event : ProgressEvent) : Prop where
  phase : event.phase = .complete
  discoveredEntries : event.discoveredEntries = (scannedIn c.scan).length
  processedEntries : event.processedEntries = (w.pipeline.result c).fileCount +
    (w.pipeline.result c).directoryCount + w.pipeline.totals.symlinkCount
  processedBytes : event.processedBytes = (w.pipeline.result c).logicalBytes
  newChunks : event.newChunks = (w.pipeline.result c).newChunks
  reusedChunks : event.reusedChunks = (w.pipeline.result c).reusedChunks

/-- The counters of the aggregator behind a published snapshot are those of its result. -/
structure Settled (c : Config) (w : Observed) : Prop where
  discoveredEntries : w.aggregator.counters .discoveredEntries = (scannedIn c.scan).length
  processedEntries : w.aggregator.counters .processedEntries = (w.pipeline.result c).fileCount +
    (w.pipeline.result c).directoryCount + w.pipeline.totals.symlinkCount
  processedBytes : w.aggregator.counters .processedBytes = (w.pipeline.result c).logicalBytes
  newChunks : w.aggregator.counters .newChunks = (w.pipeline.result c).newChunks
  reusedChunks : w.aggregator.counters .reusedChunks = (w.pipeline.result c).reusedChunks

section Scan

variable {host : ScanHost} {source : Source} {options : FileScannerOptions}

theorem handled_sized {ls : List Label} (hw : 0 < c.workerCount)
    (hscan : c.scan = (scanStreaming host source options .start).2.jobs)
    (h : Snapshot.run c x (State.start c v e) ls = some s) (hm : s.main.settles = true) :
    ∀ p ∈ s.handled, p.value.Sized := by
  intro p hp
  cases (run_results h).handled p hp with
  | passed hj hpass =>
    have hmem : p.origin ∈ c.scan :=
      (run_handled h hm hw).mem_iff.mp (List.mem_map.mpr ⟨p, hp, rfl⟩)
    rw [hpass]
    rw [hscan] at hmem
    exact scanStreaming_sized source options p.origin hmem
  | stored e' a refs ho ht ha hv hsame hrefs hspool hsize hhash hcount htries hsource =>
    rw [hv]
    exact fun hn => absurd ht hn
  | unread e' n ho ht hv hpath hrefs ha htries hsource =>
    rw [hv]
    trivial

theorem run_settled (hw : 0 < c.workerCount)
    (hscan : c.scan = (scanStreaming host source options .start).2.jobs)
    (h : (Observed.start c v e now).run c x turns = some w)
    (hm : w.pipeline.main = .published) : Settled c w := by
  have ho := run_observes h
  have ha := run_accounts h
  obtain ⟨ls, hrun⟩ := ho.reached
  have hsettles : w.pipeline.main.settles = true := by
    rw [hm]
    rfl
  have hended := ho.placed.orderly.ended hsettles
  have hcomplete := (ho.winding.scanned hended.scanner).resolve_left hended.clean.not_failed
  obtain ⟨db, time, hrecorded, -⟩ := run_published hrun hm
  have hresults := (run_results hrun).handled
  have hcounted := hrecorded.counted hresults
  have hchunks : ∀ p ∈ w.pipeline.handled, _ := fun p hp =>
    (hresults p hp).chunks (run_tallied hrun hsettles p hp)
  have hprocessed : ∀ k, k.discovers = false → w.aggregator.counters k =
      (w.pipeline.handled.map (fun p => amount p.additions k)).sum := fun k hk =>
    run_processed h hsettles hk
  refine ⟨?_, ?_, ?_, ?_, ?_⟩
  · rw [ha.balanced.discovered ha.found hcomplete rfl]
    exact sum_map_one _ _ fun _ => rfl
  · have hroom := ha.balanced.bounded
    rw [hprocessed _ rfl] at hroom ⊢
    exact (hrecorded.counts_entries hroom).symm
  · rw [hprocessed _ rfl]
    exact (hrecorded.logicalSize (handled_sized hw hscan hrun hsettles)).symm
  · rw [hprocessed _ rfl, List.map_congr_left fun p hp => (hchunks p hp).1, ← references_filter]
    exact hcounted.count.symm
  · rw [hprocessed _ rfl, List.map_congr_left fun p hp => (hchunks p hp).2, ← references_filter]
    exact hcounted.reused.symm

/-- The last event of a call that has returned is the one of its end. -/
theorem returned_last (h : (Observed.start c v e now).run c x turns = some w)
    (hc : w.course = .returned) : ∃ last, w.delivered.getLast? = some last ∧
      last.draft.notice.phase = .complete := by
  have hreports := run_reports h
  have hone := hreports.returned hc .complete (by decide)
  have hmem : Occasion.complete ∈ w.delivered.map Delivery.occasion :=
    List.count_pos_iff.mp (by omega)
  obtain ⟨d, hd, hoccasion⟩ := List.mem_map.mp hmem
  have hphase : d.draft.notice.phase = .complete := by
    have hfits := hreports.fits d hd
    unfold Notice.fits at hfits
    change d.draft.notice.occasion = .complete at hoccasion
    rwa [hoccasion] at hfits
  obtain ⟨before, last, hlast⟩ := List.eq_nil_or_concat w.delivered |>.resolve_left
    (List.ne_nil_of_mem hd)
  have hsorted := hreports.sorted
  rw [hlast] at hd hsorted
  refine ⟨last, by rw [hlast, List.concat_eq_append, List.getLast?_concat], ?_⟩
  rw [List.concat_eq_append] at hd hsorted
  rcases List.mem_append.mp hd with hd | hd
  · have hrank := (List.pairwise_append.mp hsorted).2.2 d hd last (List.mem_singleton.mpr rfl)
    change d.draft.notice.phase.rank ≤ last.draft.notice.phase.rank at hrank
    rw [hphase] at hrank
    revert hrank
    cases last.draft.notice.phase <;> simp [OperationPhase.rank]
  · rw [← List.mem_singleton.mp hd]
    exact hphase

/-- What the counters of the events of a call are. -/
structure Exact (c : Config) (w : Observed) : Prop where
  monotone : w.delivered.Pairwise (fun d e => d.draft.event.Behind e.draft.event)
  together : ∀ d ∈ w.delivered,
    d.draft.event.totalEntries.isSome = d.draft.event.totalBytes.isSome
  absent : w.aggregator.scanComplete = false → ∀ d ∈ w.drafts,
    d.event.totalEntries = none ∧ d.event.totalBytes = none
  totalEntries : ∀ d ∈ w.delivered, ∀ n, d.draft.event.totalEntries = some n →
    n = (scannedIn c.scan).length
  totalBytes : ∀ d ∈ w.delivered, ∀ n, d.draft.event.totalBytes = some n →
    n = ((scannedIn c.scan).map ScannedEntry.logicalSize).sum
  returned : w.course = .returned → ∃ last, w.delivered.getLast? = some last ∧
    Completed c w last.draft.event

/-- The counters never go back, the totals are those of the whole scan, and a call that has
returned has reported what it returns. -/
theorem run_exact (hw : 0 < c.workerCount)
    (hscan : c.scan = (scanStreaming host source options .start).2.jobs)
    (h : (Observed.start c v e now).run c x turns = some w) : Exact c w := by
  have ha := run_accounts h
  refine ⟨ha.viewed.monotone, fun d hd => ?_, fun hn d hd => ?_, fun d hd n hn => ?_,
    fun d hd n hn => ?_, fun hc => ?_⟩
  · rcases ha.viewed.totalled hd with ⟨-, hentries, hbytes⟩ | ⟨-, hentries, hbytes⟩
    · rw [hentries, hbytes]
    · rw [hentries, hbytes]
  · have hseen := ha.viewed.seen d hd
    refine hseen.untotalled fun hcomplete => ?_
    rw [hseen.scanned hcomplete] at hn
    cases hn
  · rw [ha.total hd .totalEntries (by decide) rfl hn]
    exact sum_map_one _ _ fun _ => rfl
  · exact ha.total hd .totalBytes (by decide) rfl hn
  · obtain ⟨last, hlast, hphase⟩ := returned_last h hc
    have hmem := List.mem_of_getLast? hlast
    have hsettled := run_settled hw hscan h ((run_observes h).placed.returned hc)
    have hvalue : ∀ field ∈ loads false,
        last.draft.value field = w.aggregator.counters field.counter := fun field hfield =>
      (ha.viewed.seen last.draft (Viewed.mem_drafts hmem)).final hphase _
        (ha.viewed.value hmem hfield)
    exact ⟨last, hlast, hphase, (hvalue _ (by decide)).trans hsettled.discoveredEntries,
      (hvalue _ (by decide)).trans hsettled.processedEntries,
      (hvalue _ (by decide)).trans hsettled.processedBytes,
      (hvalue _ (by decide)).trans hsettled.newChunks,
      (hvalue _ (by decide)).trans hsettled.reusedChunks⟩

end Scan

def emptySource : Source :=
  ⟨ascii "/s", .ok [], plain .directory, true, .absent, ⟨.nil, by decide, by decide⟩⟩

def emptyConfig : Config :=
  { sampleConfig with scan := (scanStreaming collecting emptySource everything .start).2.jobs }

/-- A call that records an empty directory. -/
theorem run_exact_empty : ∃ w,
    (Observed.start emptyConfig pendingVault false 0).run emptyConfig sampleExternals
      (discoveryTurns ++ publicationTurns) = some w ∧
    w.course = .returned ∧ Exact emptyConfig w := by
  have hrun : ((Observed.start emptyConfig pendingVault false 0).run emptyConfig
      sampleExternals (discoveryTurns ++ publicationTurns)).any (fun w => w.course = .returned) =
        true := by
    decide +kernel
  obtain ⟨w, hw, hcourse⟩ := (Option.any_eq_true _ _).mp hrun
  exact ⟨w, hw, of_decide_eq_true hcourse, run_exact Nat.one_pos rfl hw⟩

end LocalVault.Snapshot
