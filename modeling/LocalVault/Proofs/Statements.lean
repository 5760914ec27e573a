import LocalVault.Database.Integrity

namespace LocalVault
open Library

variable {db : Database}

theorem Database.ofStatus_iff {id : SnapshotId} {statuses : List SnapshotStatus} :
    db.ofStatus id statuses = true ↔ ∃ s ∈ db.snapshots, s.id = id ∧ s.status ∈ statuses := by
  simp [Database.ofStatus]

theorem Database.foreignKeysHold_of (h : db.Consistent) : db.foreignKeysHold = true := by
  simp only [Database.foreignKeysHold, Bool.and_eq_true, List.all_eq_true, List.any_eq_true,
    beq_iff_eq]
  exact ⟨⟨⟨h.entrySnapshot, h.referenceEntry⟩, h.referenceChunk⟩, h.warningSnapshot⟩

/-- The row of an identifier decides its status. -/
theorem Database.Keyed.ofStatus_row (h : db.Keyed) {s : SnapshotRow}
    (hs : s ∈ db.snapshots) {statuses : List SnapshotStatus} :
    db.ofStatus s.id statuses = true ↔ s.status ∈ statuses := by
  rw [Database.ofStatus_iff]
  constructor
  · rintro ⟨r, hr, hid, hstatus⟩
    rwa [List.inj_on_of_nodup_map h.snapshots hr hs hid] at hstatus
  · intro hstatus
    exact ⟨s, hs, rfl, hstatus⟩

@[simp] theorem wp_requireSingle {missing multiple : LocalVaultError} {n : Nat}
    {Q : Unit → Database → Prop} {E : LocalVaultError → Database → Prop} (hn : n = 1) :
    (requireSingle missing multiple n : Sql Unit).wp Q E db ↔ Q () db := by
  subst hn
  exact Iff.rfl

@[simp] theorem wp_updateSnapshots {selected : SnapshotRow → Bool}
    {change : SnapshotRow → SnapshotRow} {Q : Nat → Database → Prop}
    {E : LocalVaultError → Database → Prop} :
    (updateSnapshots selected change).wp Q E db ↔ Q (db.snapshots.filter selected).length
      { db with snapshots := db.snapshots.map (fun s => if selected s then change s else s) } :=
  Iff.rfl

/-- The rows of a table of snapshots where those of one kind were changed, the
keys kept. -/
def Database.withSnapshots (db : Database) (change : SnapshotRow → SnapshotRow) : Database :=
  { db with snapshots := db.snapshots.map change }

/-- A change of snapshot rows that publishes nothing. -/
theorem Database.Consistent.withSnapshots (h : db.Consistent) {change : SnapshotRow → SnapshotRow}
    (hid : ∀ s, (change s).id = s.id)
    (hstatus : ∀ s, (change s).status = .complete → s.status = .complete) :
    (db.withSnapshots change).Consistent := by
  have hrow : ∀ {id : SnapshotId}, (∃ s ∈ db.snapshots, s.id = id) →
      ∃ s ∈ (db.withSnapshots change).snapshots, s.id = id := by
    rintro id ⟨s, hs, rfl⟩
    exact ⟨change s, List.mem_map.mpr ⟨s, hs, rfl⟩, hid s⟩
  exact {
    snapshots := nodup_key_map h.snapshots hid
    entries := h.entries
    chunks := h.chunks
    warnings := h.warnings
    entrySnapshot := fun e he => hrow (h.entrySnapshot e he)
    warningSnapshot := fun w hw => hrow (h.warningSnapshot w hw)
    referenceEntry := h.referenceEntry
    referenceChunk := h.referenceChunk
    snapshotIds := by
      intro s hs
      obtain ⟨r, hr, rfl⟩ := List.mem_map.mp hs
      rw [hid]
      exact h.snapshotIds r hr
    entryIds := h.entryIds
    warningIds := h.warningIds
    hashed := by
      intro e he hc
      obtain ⟨s, hs, hsid, hsc⟩ := Database.ofStatus_iff.mp hc
      obtain ⟨r, hr, rfl⟩ := List.mem_map.mp hs
      refine h.hashed e he (Database.ofStatus_iff.mpr ⟨r, hr, ?_, ?_⟩)
      · rw [← hsid, hid]
      · simpa using hstatus r (by simpa using hsc) }

theorem Database.Consistent.dropEntries (h : db.Consistent) (drop : EntryRow → Bool) :
    (db.dropEntries drop).Consistent := by
  exact {
    snapshots := h.snapshots
    entries := nodup_key_filter h.entries _
    chunks := h.chunks
    warnings := h.warnings
    entrySnapshot := fun e he => h.entrySnapshot e (List.mem_of_mem_filter he)
    warningSnapshot := h.warningSnapshot
    referenceEntry := by
      intro c hc
      obtain ⟨hc, hkept⟩ := List.mem_filter.mp hc
      obtain ⟨e, he, hid⟩ := h.referenceEntry c hc
      refine ⟨e, List.mem_filter.mpr ⟨he, ?_⟩, hid⟩
      cases hd : drop e with
      | false => rfl
      | true =>
        have hgone : (db.entries.filter drop).any (fun e => e.id == c.entryId) = true :=
          List.any_eq_true.mpr ⟨e, List.mem_filter.mpr ⟨he, hd⟩, by simp [hid]⟩
        simp [hgone] at hkept
    referenceChunk := fun c hc => h.referenceChunk c (List.mem_of_mem_filter hc)
    snapshotIds := h.snapshotIds
    entryIds := fun e he => h.entryIds e (List.mem_of_mem_filter he)
    warningIds := h.warningIds
    hashed := fun e he => h.hashed e (List.mem_of_mem_filter he) }

theorem Database.Consistent.dropWarnings (h : db.Consistent) (drop : WarningRow → Bool) :
    (db.dropWarnings drop).Consistent := by
  exact {
    snapshots := h.snapshots
    entries := h.entries
    chunks := h.chunks
    warnings := nodup_key_filter h.warnings _
    entrySnapshot := h.entrySnapshot
    warningSnapshot := fun w hw => h.warningSnapshot w (List.mem_of_mem_filter hw)
    referenceEntry := h.referenceEntry
    referenceChunk := h.referenceChunk
    snapshotIds := h.snapshotIds
    entryIds := h.entryIds
    warningIds := fun w hw => h.warningIds w (List.mem_of_mem_filter hw)
    hashed := h.hashed }

theorem Database.Consistent.dropSnapshots (h : db.Consistent) (drop : SnapshotRow → Bool) :
    (db.dropSnapshots drop).Consistent := by
  have hkept : ∀ {id : SnapshotId}, (∃ s ∈ db.snapshots, s.id = id) →
      (db.snapshots.filter drop).any (fun s => s.id == id) = false →
      ∃ s ∈ (db.dropSnapshots drop).snapshots, s.id = id := by
    rintro id ⟨s, hs, rfl⟩ hid
    refine ⟨s, List.mem_filter.mpr ⟨hs, ?_⟩, rfl⟩
    cases hd : drop s with
    | false => rfl
    | true =>
      have := List.any_eq_false.mp hid s (List.mem_filter.mpr ⟨hs, hd⟩)
      simp at this
  have h' := (h.dropEntries
    (fun e => (db.snapshots.filter drop).any (fun s => s.id == e.snapshotId))).dropWarnings
    (fun w => (db.snapshots.filter drop).any (fun s => s.id == w.snapshotId))
  exact {
    snapshots := nodup_key_filter h.snapshots _
    entries := h'.entries
    chunks := h'.chunks
    warnings := h'.warnings
    entrySnapshot := by
      intro e he
      obtain ⟨he, hlost⟩ := List.mem_filter.mp he
      exact hkept (h.entrySnapshot e he) (by simpa using hlost)
    warningSnapshot := by
      intro w hw
      obtain ⟨hw, hlost⟩ := List.mem_filter.mp hw
      exact hkept (h.warningSnapshot w hw) (by simpa using hlost)
    referenceEntry := h'.referenceEntry
    referenceChunk := h'.referenceChunk
    snapshotIds := fun s hs => h.snapshotIds s (List.mem_of_mem_filter hs)
    entryIds := h'.entryIds
    warningIds := h'.warningIds
    hashed := by
      intro e he hc
      refine h'.hashed e he ?_
      obtain ⟨s, hs, hid⟩ := Database.ofStatus_iff.mp hc
      exact Database.ofStatus_iff.mpr ⟨s, List.mem_of_mem_filter hs, hid⟩ }

end LocalVault
