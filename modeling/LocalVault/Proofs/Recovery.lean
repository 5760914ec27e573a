import LocalVault.Proofs.Clearing

namespace LocalVault.Repository
open Library

variable {v : Vault} {o : Outside} {s : Session} {db : Database}

/-- Recovery's own last check accepts what recovery leaves. -/
theorem quickRelationshipCheck_quiet (h : db.Consistent) (hq : AllQuiet db) :
    quickRelationshipCheck db = .ok () := by
  have hincomplete : ∀ j, db.ofStatus j [.failed, .cancelled] = true → Quiet db j := by
    intro j hj
    obtain ⟨r, hr, rfl, hst⟩ := Database.ofStatus_iff.mp hj
    refine hq r hr ?_
    intro hc
    simp [hc] at hst
  have hinvalid : db.invalidRelationship = false := by
    simp only [Database.invalidRelationship, Bool.or_eq_false_iff, List.any_eq_false]
    refine ⟨⟨⟨?_, ?_⟩, ?_⟩, ?_⟩
    · intro r hr hst
      have hne : r.status ≠ .complete := by
        intro hc
        simp [hc] at hst
      rcases (hq r hr hne).status r hr rfl with hf | hf <;> simp [hf] at hst
    · intro e he hst
      have hmem : e ∈ db.entriesOf e.snapshotId := List.mem_filter.mpr ⟨he, by simp⟩
      rw [(hincomplete _ hst).entries] at hmem
      cases hmem
    · intro w hw hst
      have hmem : w ∈ db.warningsOf w.snapshotId := List.mem_filter.mpr ⟨hw, by simp⟩
      rw [(hincomplete _ hst).warnings] at hmem
      cases hmem
    · intro e he hst
      simp only [Bool.and_eq_true, beq_iff_eq, Bool.not_eq_true'] at hst
      have hhash := h.hashed e he hst.1.1 hst.1.2
      rw [hst.2] at hhash
      cases hhash
  simp [quickRelationshipCheck, Database.foreignKeysHold_of h, hinvalid]

/-- Where nothing is left to recover, only the times are forgotten. -/
theorem recovered_quiet (h : db.Consistent) (hq : AllQuiet db) : db.recovered = db.untimed := by
  have hcomplete : ∀ {id : SnapshotId}, (∃ s ∈ db.snapshots, s.id = id) →
      ¬ Quiet db id → db.ofStatus id [.complete] = true := by
    rintro id ⟨s, hs, rfl⟩ hn
    rw [h.ofStatus_row hs, List.mem_singleton]
    by_contra hc
    exact hn (hq s hs hc)
  have hkept : db.keptEntries = db.entries := by
    unfold Database.keptEntries
    rw [List.filter_eq_self]
    intro e he
    refine hcomplete (h.entrySnapshot e he) ?_
    intro hquiet
    have hmem : e ∈ db.entriesOf e.snapshotId := List.mem_filter.mpr ⟨he, by simp⟩
    rw [hquiet.entries] at hmem
    cases hmem
  have hchunks : db.entryChunks.filter (fun c => db.entries.any (fun e => e.id == c.entryId)) =
      db.entryChunks := by
    rw [List.filter_eq_self]
    intro c hc
    obtain ⟨e, he, hid⟩ := h.referenceEntry c hc
    exact List.any_eq_true.mpr ⟨e, he, by simp [hid]⟩
  have hwarnings : db.warnings.filter (fun w => db.ofStatus w.snapshotId [.complete]) =
      db.warnings := by
    rw [List.filter_eq_self]
    intro w hw
    refine hcomplete (h.warningSnapshot w hw) ?_
    intro hquiet
    have hmem : w ∈ db.warningsOf w.snapshotId := List.mem_filter.mpr ⟨hw, by simp⟩
    rw [hquiet.warnings] at hmem
    cases hmem
  have hstatus : ∀ r ∈ db.snapshots, r.status ≠ .deleting ∧ r.status ≠ .pending := by
    intro r hr
    by_cases hc : r.status = .complete
    · simp [hc]
    · rcases (hq r hr hc).status r hr rfl with hf | hf <;> simp [hf]
  have hrows : (db.snapshots.filter (fun s => s.status != .deleting)).map
      (fun s => s.settled.untimed) = db.snapshots.map SnapshotRow.untimed := by
    rw [List.filter_eq_self.mpr (fun r hr => by simpa using (hstatus r hr).1)]
    apply List.map_congr_left
    intro r hr
    simp [SnapshotRow.settled, (hstatus r hr).2]
  unfold Database.recovered Database.untimed
  rw [hkept, hchunks, hwarnings, hrows]

/-- A repository object that was opened to be written, before its recovery. -/
structure Fresh (r : Opened) (s : Session) : Prop where
  mode : r.mode = .readWrite
  unrecovered : s.recoveryComplete = false

/-- What a recovery that comes to its end leaves behind. -/
structure Recovered (o : Outside) (v : Vault) (t : Session) : Prop where
  held : Held v t
  quiet : AllQuiet t.vault.db
  temporary : t.recoveryComplete = true → t.vault.temporary = Temporary.tidied v.temporary
  complete : t.recoveryComplete = true ∨ ∃ n, o.fate n = .shared

/-- Recovery keeps what it must keep however it ends, and with a supported
batch limit only the outside can end it early. -/
theorem wp_recoverAfterWriterLock {r : Opened} (h : Held v s) (hr : Fresh r s) :
    (recoverAfterWriterLock o r).wp (fun _ t => Recovered o v t)
      (CutShort v o (supported r.recoveryEntryBatchLimit)) s := by
  unfold recoverAfterWriterLock
  rw [Program.wp_bind, Program.wp_read]
  simp only [hr.unrecovered, Bool.false_eq_true, ↓reduceIte, hr.mode, ne_eq, not_true_eq_false]
  have hout : ∀ {t : Session}, Held v t → ∀ stop, FromOutside o stop →
      CutShort v o (supported r.recoveryEntryBatchLimit) stop t.tick :=
    fun ht stop hstop => ⟨ht.tick, fun _ => hstop⟩
  rw [Program.wp_bind]
  apply wp_query _ (hout h)
  simp only
  rw [Program.wp_bind]
  refine Program.wp_mono (wp_recoverSnapshots h.tick) ?_ (fun _ _ hc => hc)
  rintro _ t ⟨ht, hquiet⟩
  rw [Program.wp_bind]
  refine Program.wp_mono (wp_clearTemporaryTree ht) ?_ ?_
  · rintro complete u ⟨hu, hdb, hclean, hshared⟩
    rw [Program.wp_bind]
    have hq : AllQuiet u.vault.db := hdb ▸ hquiet
    apply wp_query _ (hout hu)
    rw [quickRelationshipCheck_quiet hu.settles.consistent hq]
    simp only [Program.wp_update]
    exact ⟨⟨hu.settles, hu.objects, hu.orderly, hu.tidied⟩, hq, hclean, hshared⟩
  · rintro stop u ⟨hu, hcause⟩
    exact ⟨hu, fun _ => hcause rfl⟩

end LocalVault.Repository
