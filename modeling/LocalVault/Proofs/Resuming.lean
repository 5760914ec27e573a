import LocalVault.Proofs.Sweeping

namespace LocalVault.Repository
open Library

/-- What is committed when the process dies in front of a call. -/
def committed (m : Outside → SessionM Unit) (o : Outside) (w : Vault) (n : Nat) : Database :=
  (m (o.cut n) (Session.start w)).2.vault.db

/-- However often a program was interrupted and begun again, its next run
reaches the goal or is interrupted too, and what it commits on its way are
steps that concern one snapshot, which no query shows. -/
structure Resumes (id : SnapshotId) (Step : Database → Database → Prop)
    (m : Outside → SessionM Unit) (v : Vault) (goal : Database) : Prop where
  outcome : ∀ {os w}, Interrupted m os v w → ∀ o,
    (m o).wp (fun _ t => t.vault = { v with db := goal }) (fun stop _ => FromOutside o stop)
      (Session.start w)
  first : ∀ {os w}, Interrupted m os v w → ∀ o, committed m o w 0 = w.db
  commits : ∀ {os w}, Interrupted m os v w → ∀ o n,
    committed m o w (n + 1) = committed m o w n ∨
      Step (committed m o w n) (committed m o w (n + 1))
  last : ∀ {os w}, Interrupted m os v w → ∀ o, ∃ count, ∀ n, count ≤ n →
    m (o.cut n) (Session.start w) = m o (Session.start w)
  untouched : ∀ {os w}, Interrupted m os v w → ∀ o n, Untouched id v.db (committed m o w n)
  invisible : ∀ {os w}, Interrupted m os v w → ∀ o n, Invisible id v.db (committed m o w n)

section Resuming

variable {v : Vault} {id : SnapshotId} {m : Outside → SessionM Unit} {goal : Database}
  {Step : Database → Database → Prop} {limit : Nat}

/-- Interrupted runs leave a vault that has lost rows of the snapshot only. -/
theorem Interrupted.swept {os : List Outside} {w : Vault}
    (run : ∀ o s, Swept id v s.vault → (m o).wp (fun _ _ => True)
      (fun _ t => Swept id v t.vault) s) {u : Vault} (h : Interrupted m os u w)
    (hu : Swept id v u) : Swept id v w := by
  induction h with
  | none _ => exact hu
  | @again o os u w stop t hrun _ ih =>
    apply ih
    have hend := run o (Session.start u) hu
    unfold Program.wp at hend
    rw [hrun] at hend
    exact hend

theorem resumes_of (hk : v.db.Identified) (hid : v.db.ofStatus id [.complete] = false)
    (hm : Interruptible m)
    (run : ∀ o s, Swept id v s.vault → (m o).wp (fun _ t => t.vault = { v with db := goal })
      (fun stop t => Swept id v t.vault ∧ FromOutside o stop) s)
    (steps : ∀ s, Swept id v s.vault → Stepwise Step m s) (hgoal : Untouched id v.db goal)
    (hentries : ∀ e ∈ goal.entries, e ∈ v.db.entries)
    (hsnapshots : ∀ r ∈ goal.snapshots, r ∈ v.db.snapshots) : Resumes id Step m v goal := by
  have hswept : ∀ {os w}, Interrupted m os v w → Swept id v w := by
    intro os w h
    apply h.swept _ ⟨rfl, Thinned.refl⟩
    exact fun o s hs => Program.wp_mono (run o s hs) (fun _ _ _ => trivial) (fun _ _ h => h.1)
  have hstatus : ∀ r ∈ v.db.snapshots, r.id = id → r.status ≠ .complete := by
    intro r hr hrid hc
    have hno := List.any_eq_false.mp hid r hr
    simp [hrid, hc] at hno
  -- what is committed is the goal or a thinned database
  have hstate : ∀ {os w}, Interrupted m os v w → ∀ o n,
      committed m o w n = goal ∨ Thinned id v.db (committed m o w n) := by
    intro os w h o n
    have hend : (m (o.cut n)).wp (fun _ t => t.vault.db = goal ∨ Thinned id v.db t.vault.db)
        (fun _ t => t.vault.db = goal ∨ Thinned id v.db t.vault.db) (Session.start w) := by
      refine Program.wp_mono (run (o.cut n) _ (hswept h)) ?_ ?_
      · exact fun _ t ht => Or.inl (congrArg Vault.db ht)
      · exact fun _ t ht => Or.inr ht.1.thinned
    exact Program.wp_final hend
  refine ⟨?_, ?_, ?_, ?_, ?_, ?_⟩
  · intro os w h o
    exact Program.wp_mono (run o _ (hswept h)) (fun _ _ ht => ht) (fun _ _ ht => ht.2)
  · intro os w h o
    exact congrArg Vault.db (hm.frozen o 0 _ (Nat.zero_le _))
  · exact fun h o n => steps _ (hswept h) o n
  · exact fun h o => ⟨_, fun n hn => hm.cut_late hn⟩
  · intro os w h o n
    rcases hstate h o n with hg | ht
    · exact hg ▸ hgoal
    · exact untouched_thinned hk ht
  · intro os w h o n
    rcases hstate h o n with hg | ht
    · rw [hg]
      exact invisible_of hk hentries (fun r hr => hstatus r (hsnapshots r hr))
    · exact invisible_of hk ht.entries_subset (by rw [ht.snapshots]; exact hstatus)

theorem cleanIncompleteSnapshot_supported (h : supported limit = true) (o : Outside) :
    cleanIncompleteSnapshot o id limit = (do
      removeEntries o id limit (requireGivenUp id)
      removeWarnings o id limit (requireGivenUp id)) := by
  unfold cleanIncompleteSnapshot
  rw [(checkedBatchLimit_of h).1]

theorem deleteDeletingSnapshot_supported (h : supported limit = true) (o : Outside) :
    deleteDeletingSnapshot o id limit = (do
      removeEntries o id limit (requireDeleting id)
      removeWarnings o id limit (requireDeleting id)
      transaction o (deleteSnapshotRow id)) := by
  unfold deleteDeletingSnapshot
  rw [(checkedBatchLimit_of h).1]

theorem cleanIncompleteSnapshot_resumes (hk : v.db.Identified) (hl : supported limit = true)
    (hs : v.db.ofStatus id [.failed, .cancelled] = true) :
    Resumes id (Batch limit id) (fun o => cleanIncompleteSnapshot o id limit) v
      (v.db.emptied id) := by
  have hpos := (checkedBatchLimit_of hl).2
  have hthin : Thinned id v.db (v.db.emptied id) := .of_emptied
  simp only [cleanIncompleteSnapshot_supported hl]
  apply resumes_of hk (incomplete_of_status hk.toKeyed (by decide) hs)
  · exact interruptible_removeBatches.bind (fun _ => interruptible_removeBatches)
  · intro o s h
    rw [Program.wp_bind]
    refine Program.wp_mono (wp_sweepEntries hk hpos h hs) ?_ (fun _ _ h => h)
    intro _ t ⟨ht, he⟩
    refine Program.wp_mono (wp_sweepWarnings hk hpos ht hs he) ?_ (fun _ _ h => h)
    intro _ u ⟨hu, hnone, hwarnings⟩
    rw [hu.rest, hu.thinned.emptied hnone hwarnings]
  · intro s h
    apply (stepwise_removeEntries hk hpos h (fun hb => hb)).bind interruptible_removeBatches
      (fun _ => interruptible_removeBatches)
    intro o
    refine Program.wp_mono (wp_sweepEntries hk hpos h hs) ?_ (fun _ _ _ => trivial)
    exact fun _ t ht => stepwise_removeWarnings hk hpos ht.1 (fun hb => hb)
  · exact untouched_thinned hk hthin
  · exact hthin.entries_subset
  · exact fun r hr => hr

theorem deleteDeletingSnapshot_resumes (hk : v.db.Identified) (hl : supported limit = true)
    (hs : v.db.ofStatus id [.deleting] = true) :
    Resumes id (Deletion limit id) (fun o => deleteDeletingSnapshot o id limit) v
      (v.db.without id) := by
  have hpos := (checkedBatchLimit_of hl).2
  have hthin : Thinned id v.db (v.db.emptied id) := .of_emptied
  have hrow : ∀ {s : Session}, Swept id v s.vault → s.vault.db.entriesOf id = [] →
      s.vault.db.warningsOf id = [] → (deleteSnapshotRow id).wp
        (fun _ db => db = s.vault.db.unlisted id) (fun _ _ => False) s.vault.db := by
    intro s h he hw
    exact wp_deleteSnapshotRow_bare (h.thinned.identified hk).toKeyed (h.ofStatus.trans hs) he hw
  simp only [deleteDeletingSnapshot_supported hl]
  apply resumes_of hk (incomplete_of_status hk.toKeyed (by decide) hs)
  · exact interruptible_removeBatches.bind
      (fun _ => interruptible_removeBatches.bind (fun _ => Interruptible.transaction _))
  · intro o s h
    rw [Program.wp_bind]
    refine Program.wp_mono (wp_sweepEntries hk hpos h hs) ?_ (fun _ _ h => h)
    intro _ t ⟨ht, he⟩
    rw [Program.wp_bind]
    refine Program.wp_mono (wp_sweepWarnings hk hpos ht hs he) ?_ (fun _ _ h => h)
    intro _ u ⟨hu, hnone, hwarnings⟩
    apply wp_transaction
    · refine Program.wp_mono (hrow hu hnone hwarnings) ?_ (fun _ _ h => h.elim)
      rintro _ _ rfl
      change ({ u.vault with db := u.vault.db.unlisted id } : Vault) = _
      rw [hu.rest, hu.thinned.emptied hnone hwarnings]
      rfl
    · exact fun _ hstop => ⟨hu, hstop⟩
  · intro s h
    apply (stepwise_removeEntries hk hpos h Deletion.batch).bind interruptible_removeBatches
      (fun _ => interruptible_removeBatches.bind (fun _ => Interruptible.transaction _))
    intro o
    refine Program.wp_mono (wp_sweepEntries hk hpos h hs) ?_ (fun _ _ _ => trivial)
    intro _ t ⟨ht, he⟩
    apply (stepwise_removeWarnings hk hpos ht Deletion.batch).bind interruptible_removeBatches
      (fun _ => Interruptible.transaction _)
    intro o'
    refine Program.wp_mono (wp_sweepWarnings hk hpos ht hs he) ?_ (fun _ _ _ => trivial)
    intro _ u ⟨hu, hnone, hwarnings⟩
    apply Stepwise.transaction
    refine Program.wp_mono (hrow hu hnone hwarnings) ?_ (fun _ _ _ => trivial)
    rintro _ _ rfl
    exact .row hnone hwarnings
  · exact (untouched_thinned hk hthin).unlisted
  · exact hthin.entries_subset
  · exact fun r hr => List.mem_of_mem_filter hr

/-- Batched deletion and clean-up, interrupted anywhere and begun again, do what
one deletion would, for every batch limit the code takes. -/
theorem batches_resume (v : Vault) (id : SnapshotId) (limit : Nat) (hk : v.db.Identified)
    (hpos : 1 ≤ limit) (hmax : limit ≤ maximumInt64) :
    (v.db.ofStatus id [.deleting] = true →
      Resumes id (Deletion limit id) (fun o => deleteDeletingSnapshot o id limit) v
        (v.db.without id)) ∧
    (v.db.ofStatus id [.failed, .cancelled] = true →
      Resumes id (Batch limit id) (fun o => cleanIncompleteSnapshot o id limit) v
        (v.db.emptied id)) := by
  have hl : supported limit = true := decide_eq_true ⟨hpos, hmax⟩
  exact ⟨deleteDeletingSnapshot_resumes hk hl, cleanIncompleteSnapshot_resumes hk hl⟩

end Resuming

def sampleFolder (id : Int) (snapshotId : SnapshotId) (relativePath : Bytes) : EntryRow :=
  { id, snapshotId, relativePath, parentPath := [], name := relativePath, entryType := .directory
    logicalSize := 0, modifiedTimeNs := 0, posixMode := 0o755, windowsAttributes := none
    fileHash := none, symlinkTarget := none }

/-- A snapshot to delete, one that was given up and one to keep. -/
def sampleGivenUp : Vault :=
  let row := SnapshotRow.pendingRow
  { db := { Database.empty with
      snapshots := [{ row 1 (ascii "/a") "" 0 with status := .deleting },
        { row 2 (ascii "/a") "" 0 with status := .failed },
        { row 3 (ascii "/a") "" 0 with status := .complete }]
      entries := [sampleFolder 1 1 [], sampleFolder 2 1 (ascii "x"), sampleFolder 3 2 [],
        sampleFolder 4 3 []]
      warnings := [⟨1, 1, ascii "x", "read", ""⟩] }
    objects := fun _ => none
    temporary := [] }

theorem sampleGivenUp_identified : sampleGivenUp.db.Identified where
  snapshots := by decide
  entries := by decide
  chunks := by decide
  warnings := by decide

/-- Batches of one entry, of a deletion and of a clean-up. -/
theorem batches_resume_single :
    Resumes 1 (Deletion 1 1) (fun o => deleteDeletingSnapshot o 1 1) sampleGivenUp
      (sampleGivenUp.db.without 1) ∧
    Resumes 2 (Batch 1 2) (fun o => cleanIncompleteSnapshot o 2 1) sampleGivenUp
      (sampleGivenUp.db.emptied 2) :=
  ⟨(batches_resume sampleGivenUp 1 1 sampleGivenUp_identified (by decide) (by decide)).1 (by decide),
    (batches_resume sampleGivenUp 2 1 sampleGivenUp_identified (by decide) (by decide)).2 (by decide)⟩

/-- A limit beyond SQLite's integers is refused, and nothing is deleted. -/
theorem unsupported_limit_refused :
    sampleGivenUp.db.Identified ∧ sampleGivenUp.db.foreignKeysHold = true ∧
      sampleGivenUp.db.ofStatus 1 [.deleting] = true ∧
      ¬ Resumes 1 (Deletion (2 ^ 63) 1) (fun o => deleteDeletingSnapshot o 1 (2 ^ 63)) sampleGivenUp
        (sampleGivenUp.db.without 1) := by
  refine ⟨sampleGivenUp_identified, by decide, by decide, ?_⟩
  intro h
  have hrun := h.outcome (.none sampleGivenUp) ⟨fun _ => .done, fun _ => 0⟩
  obtain ⟨n, hn⟩ : FromOutside ⟨fun _ => .done, fun _ => 0⟩ (.raised (.localVault
    (invalidArgument "snapshot entry batch limit is outside the supported range"))) := hrun
  cases hn

end LocalVault.Repository
