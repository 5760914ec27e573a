import LocalVault.Proofs.Statements
import LocalVault.Repository.Recovery

namespace LocalVault
open Library

/-- A row up to the time at which an unpublished snapshot was given up. -/
def SnapshotRow.untimed (s : SnapshotRow) : SnapshotRow :=
  if s.status = .complete then s else { s with completedAtNs := none }

/-- What recovery makes of a row it keeps. -/
def SnapshotRow.settled (s : SnapshotRow) : SnapshotRow :=
  if s.status = .pending then s.abandoned .failed Repository.interrupted 0 else s

def Database.untimed (db : Database) : Database :=
  { db with snapshots := db.snapshots.map SnapshotRow.untimed }

def Database.keptEntries (db : Database) : List EntryRow :=
  db.entries.filter (fun e => db.ofStatus e.snapshotId [.complete])

/-- What recovery leaves of a database, up to the times at which snapshots were
given up: the complete snapshots as they are, the failed and the cancelled ones
without their rows, and nothing of a deletion. -/
def Database.recovered (db : Database) : Database :=
  { db with
    snapshots := (db.snapshots.filter (fun s => s.status != .deleting)).map (fun s => s.settled.untimed)
    entries := db.keptEntries
    entryChunks := db.entryChunks.filter (fun c => db.keptEntries.any (fun e => e.id == c.entryId))
    warnings := db.warnings.filter (fun w => db.ofStatus w.snapshotId [.complete]) }

namespace Repository

variable {db : Database}

theorem untimed_complete {s : SnapshotRow} (h : s.status = .complete) : s.untimed = s := by
  simp [SnapshotRow.untimed, h]

/-- Giving a pending snapshot up is what recovery does to it anyhow. -/
theorem settled_abandoned {s : SnapshotRow} (h : s.status = .pending) (t : Int) :
    (s.abandoned .failed interrupted t).settled.untimed = s.settled.untimed := by
  simp [SnapshotRow.settled, SnapshotRow.untimed, SnapshotRow.abandoned, h]

/-- Rows of an incomplete snapshot that go early do not change the outcome. -/
theorem recovered_dropEntries (h : db.Consistent) {drop : EntryRow → Bool}
    (hd : ∀ e ∈ db.entries, drop e = true → db.ofStatus e.snapshotId [.complete] = false) :
    (db.dropEntries drop).recovered = db.recovered := by
  have hkept : (db.dropEntries drop).keptEntries = db.keptEntries := by
    unfold Database.keptEntries
    change (db.entries.filter (fun e => !drop e)).filter
      (fun e => db.ofStatus e.snapshotId [.complete]) = _
    rw [List.filter_filter]
    apply List.filter_congr
    intro e he
    cases hdrop : drop e with
    | false => simp
    | true => simp [hd e he hdrop]
  have hchunks : (db.dropEntries drop).entryChunks.filter
      (fun c => db.keptEntries.any (fun e => e.id == c.entryId)) =
      db.entryChunks.filter (fun c => db.keptEntries.any (fun e => e.id == c.entryId)) := by
    change (db.entryChunks.filter _).filter _ = _
    rw [List.filter_filter]
    apply List.filter_congr
    intro c _
    cases hany : db.keptEntries.any (fun e => e.id == c.entryId) with
    | false => simp
    | true =>
      obtain ⟨e, he, hid⟩ := List.any_eq_true.mp hany
      obtain ⟨he, hcomplete⟩ := List.mem_filter.mp he
      suffices hno : (db.entries.filter drop).any (fun e => e.id == c.entryId) = false by simp [hno]
      rw [List.any_eq_false]
      intro d hd' hdid
      obtain ⟨hd', hdrop⟩ := List.mem_filter.mp hd'
      have hsame : d = e := List.inj_on_of_nodup_map h.entries hd' he
        ((beq_iff_eq.mp hdid).trans (beq_iff_eq.mp hid).symm)
      subst hsame
      simp [hd d hd' hdrop] at hcomplete
  unfold Database.recovered
  rw [hkept, hchunks]
  rfl

theorem recovered_dropWarnings {drop : WarningRow → Bool}
    (hd : ∀ w ∈ db.warnings, drop w = true → db.ofStatus w.snapshotId [.complete] = false) :
    (db.dropWarnings drop).recovered = db.recovered := by
  have hwarnings : (db.dropWarnings drop).warnings.filter
      (fun w => db.ofStatus w.snapshotId [.complete]) =
      db.warnings.filter (fun w => db.ofStatus w.snapshotId [.complete]) := by
    change (db.warnings.filter _).filter _ = _
    rw [List.filter_filter]
    apply List.filter_congr
    intro w hw
    cases hdrop : drop w with
    | false => simp
    | true => simp [hd w hw hdrop]
  unfold Database.recovered
  change Database.mk _ _ _ _ ((db.dropWarnings drop).warnings.filter
    (fun w => db.ofStatus w.snapshotId [.complete])) _ _ _ = _
  rw [hwarnings]
  rfl

/-- The outcome depends on the snapshot rows only through what recovery makes
of them. -/
theorem recovered_snapshots {rows : List SnapshotRow}
    (hrows : (rows.filter (fun s => s.status != .deleting)).map (fun s => s.settled.untimed) =
      (db.snapshots.filter (fun s => s.status != .deleting)).map (fun s => s.settled.untimed))
    (hcomplete : ∀ id, Database.ofStatus { db with snapshots := rows } id [.complete] =
      db.ofStatus id [.complete]) :
    Database.recovered { db with snapshots := rows } = db.recovered := by
  unfold Database.recovered Database.keptEntries
  simp only [hcomplete, hrows]

theorem recovered_abandoned (id : SnapshotId) (t : Int) :
    (db.withSnapshots (fun s =>
      if isPending id s then s.abandoned .failed interrupted t else s)).recovered = db.recovered := by
  apply recovered_snapshots
  · rw [List.filter_map, List.map_map]
    have hfilter : db.snapshots.filter ((fun s => s.status != .deleting) ∘
        fun s => if isPending id s then s.abandoned .failed interrupted t else s) =
        db.snapshots.filter (fun s => s.status != .deleting) := by
      apply List.filter_congr
      intro s _
      by_cases hp : isPending id s = true
      · have hstatus : s.status = .pending := by simp_all [isPending]
        simp only [Function.comp_apply, hp, ↓reduceIte, SnapshotRow.abandoned, hstatus]
        rfl
      · simp [hp]
    rw [hfilter]
    apply List.map_congr_left
    intro s _
    by_cases hp : isPending id s = true
    · have hstatus : s.status = .pending := by simp_all [isPending]
      simp [hp, settled_abandoned hstatus]
    · simp [hp]
  · intro j
    simp only [Database.ofStatus, List.any_map]
    congr 1
    funext s
    by_cases hp : isPending id s = true
    · have hstatus : s.status = .pending := by simp_all [isPending]
      simp [hp, SnapshotRow.abandoned, hstatus]
    · simp [hp]

theorem recovered_dropSnapshots (h : db.Consistent) {drop : SnapshotRow → Bool}
    (hd : ∀ s ∈ db.snapshots, drop s = true → s.status = .deleting) :
    (db.dropSnapshots drop).recovered = db.recovered := by
  have hlost : ∀ {id : SnapshotId}, (db.snapshots.filter drop).any (fun s => s.id == id) = true →
      db.ofStatus id [.complete] = false := by
    intro id hid
    obtain ⟨s, hs, he⟩ := List.any_eq_true.mp hid
    obtain ⟨hs, hdrop⟩ := List.mem_filter.mp hs
    rw [← beq_iff_eq.mp he, ← Bool.not_eq_true, h.ofStatus_row hs, hd s hs hdrop]
    simp
  let lostEntry : EntryRow → Bool := fun e =>
    (db.snapshots.filter drop).any (fun s => s.id == e.snapshotId)
  let lostWarning : WarningRow → Bool := fun w =>
    (db.snapshots.filter drop).any (fun s => s.id == w.snapshotId)
  have hentries : (db.dropEntries lostEntry).recovered = db.recovered :=
    recovered_dropEntries h (fun e _ he => hlost he)
  have hwarnings : ((db.dropEntries lostEntry).dropWarnings lostWarning).recovered =
      (db.dropEntries lostEntry).recovered :=
    recovered_dropWarnings (fun w _ hw => hlost hw)
  rw [← hentries, ← hwarnings]
  apply recovered_snapshots
  · change ((db.snapshots.filter _).filter _).map _ = (db.snapshots.filter _).map _
    rw [List.filter_filter]
    congr 1
    apply List.filter_congr
    intro s hs
    cases hdrop : drop s with
    | false => simp
    | true => simp [hd s hs hdrop]
  · intro j
    rw [Bool.eq_iff_iff, Database.ofStatus_iff, Database.ofStatus_iff]
    constructor
    · rintro ⟨s, hs, hid⟩
      exact ⟨s, List.mem_of_mem_filter hs, hid⟩
    · rintro ⟨s, hs, hid, hstatus⟩
      refine ⟨s, List.mem_filter.mpr ⟨hs, ?_⟩, hid, hstatus⟩
      cases hdrop : drop s with
      | false => rfl
      | true => simp [hd s hs hdrop] at hstatus

/-- A change that recovery would have made: the outcome is the same. -/
structure Settles (db db' : Database) : Prop where
  consistent : db'.Consistent
  recovered : db'.recovered = db.recovered

/-- A change that concerns the rows of one snapshot only. -/
structure Elsewhere (id : SnapshotId) (db db' : Database) : Prop where
  entries : ∀ j, j ≠ id → db'.entriesOf j = db.entriesOf j
  warnings : ∀ j, j ≠ id → db'.warningsOf j = db.warningsOf j
  rows : ∀ s : SnapshotRow, s.id ≠ id → (s ∈ db'.snapshots ↔ s ∈ db.snapshots)

theorem Settles.refl (h : db.Consistent) : Settles db db := ⟨h, rfl⟩

theorem Settles.trans {a b c : Database} (h : Settles a b) (h' : Settles b c) : Settles a c :=
  ⟨h'.consistent, h'.recovered.trans h.recovered⟩

theorem Elsewhere.refl (id : SnapshotId) (db : Database) : Elsewhere id db db :=
  ⟨fun _ _ => rfl, fun _ _ => rfl, fun _ _ => Iff.rfl⟩

theorem Elsewhere.trans {id : SnapshotId} {a b c : Database} (h : Elsewhere id a b)
    (h' : Elsewhere id b c) : Elsewhere id a c :=
  ⟨fun j hj => (h'.entries j hj).trans (h.entries j hj),
    fun j hj => (h'.warnings j hj).trans (h.warnings j hj),
    fun s hs => (h'.rows s hs).trans (h.rows s hs)⟩

/-- A check that a snapshot has one of some statuses passes where it has, and
throws otherwise. -/
theorem wp_requireStatus (h : db.Keyed) {id : SnapshotId} {statuses : List SnapshotStatus}
    {missing multiple : LocalVaultError} {Q : Unit → Database → Prop}
    {E : LocalVaultError → Database → Prop} (hq : db.ofStatus id statuses = true → Q () db)
    (he : db.ofStatus id statuses = false → E missing db) :
    (requireStatus id statuses missing multiple).wp Q E db := by
  unfold requireStatus
  rw [Program.wp_bind, Program.wp_read]
  cases hs : db.ofStatus id statuses with
  | true =>
    obtain ⟨s, hs', rfl, hstatus⟩ := Database.ofStatus_iff.mp hs
    have hone : db.snapshots.filter (fun r => r.id == s.id && statuses.contains r.status) = [s] := by
      rw [filter_key_and h.snapshots hs' (fun r => statuses.contains r.status)]
      simp [hstatus]
    rw [wp_requireSingle (by rw [hone]; rfl)]
    exact hq hs
  | false =>
    have hnone : db.snapshots.filter (fun r => r.id == id && statuses.contains r.status) = [] := by
      rw [List.filter_eq_nil_iff]
      exact fun r hr => List.any_eq_false.mp hs r hr
    rw [hnone]
    exact he hs

theorem incomplete_of_status (h : db.Keyed) {id : SnapshotId} {statuses : List SnapshotStatus}
    (hs : SnapshotStatus.complete ∉ statuses) (hid : db.ofStatus id statuses = true) :
    db.ofStatus id [.complete] = false := by
  obtain ⟨s, hrow, rfl, hstatus⟩ := Database.ofStatus_iff.mp hid
  rw [← Bool.not_eq_true, h.ofStatus_row hrow, List.mem_singleton]
  intro hc
  exact hs (hc ▸ hstatus)

/-- Rows of one owner that go leave those of another alone. -/
theorem filter_drop_other {ρ : Type} {rows : List ρ} {owner : ρ → SnapshotId} {drop : ρ → Bool}
    {id j : SnapshotId} (hdrop : ∀ r ∈ rows, drop r = true → owner r = id) (hj : j ≠ id) :
    (rows.filter (fun r => !drop r)).filter (fun r => owner r == j) =
      rows.filter (fun r => owner r == j) := by
  rw [List.filter_filter]
  apply List.filter_congr
  intro r hr
  cases hd : drop r with
  | false => simp
  | true =>
    have hne : (owner r == j) = false := by
      rw [hdrop r hr hd]
      simpa using hj.symm
    simp [hne]

/-- One transaction of the loop over the entries. -/
theorem wp_entryBatch (h : db.Keyed) {id : SnapshotId} {limit : Nat} (hl : 0 < limit)
    {statuses : List SnapshotStatus} {missing multiple : LocalVaultError} :
    (do requireStatus id statuses missing multiple; deleteEntryBatch id limit).wp
      (fun removed db' => db.ofStatus id statuses = true ∧
        ∃ drop, Removal db.entries EntryRow.snapshotId id limit drop removed ∧
          db' = db.dropEntries drop)
      (fun _ _ => db.ofStatus id statuses = false) db := by
  rw [Program.wp_bind]
  apply wp_requireStatus h
  · exact fun hstatus => ⟨hstatus, _, removal_batchOf h.entries hl rfl, rfl⟩
  · exact fun hstatus => hstatus

/-- One transaction of the loop over the warnings. -/
theorem wp_warningBatch (h : db.Keyed) (hw : (db.warnings.map WarningRow.id).Nodup)
    {id : SnapshotId} {limit : Nat} (hl : 0 < limit)
    {statuses : List SnapshotStatus} {missing multiple : LocalVaultError} :
    (do requireStatus id statuses missing multiple; deleteWarningBatch id limit).wp
      (fun removed db' => db.ofStatus id statuses = true ∧
        ∃ drop, Removal db.warnings WarningRow.snapshotId id limit drop removed ∧
          db' = db.dropWarnings drop)
      (fun _ _ => db.ofStatus id statuses = false) db := by
  rw [Program.wp_bind]
  apply wp_requireStatus h
  · exact fun hstatus => ⟨hstatus, _, removal_batchOf hw hl rfl, rfl⟩
  · exact fun hstatus => hstatus

/-- A batch of entries is one that recovery would remove anyhow. -/
theorem settles_entryBatch (h : db.Consistent) {id : SnapshotId} {limit removed : Nat}
    {drop : EntryRow → Bool} (hd : Removal db.entries EntryRow.snapshotId id limit drop removed)
    (hid : db.ofStatus id [.complete] = false) :
    Settles db (db.dropEntries drop) ∧ Elsewhere id db (db.dropEntries drop) := by
  refine ⟨⟨h.dropEntries _, recovered_dropEntries h ?_⟩,
    ⟨fun j hj => filter_drop_other hd.mine hj, fun _ _ => rfl, fun _ _ => Iff.rfl⟩⟩
  intro e he hdrop
  rwa [hd.mine e he hdrop]

theorem settles_warningBatch (h : db.Consistent) {id : SnapshotId} {limit removed : Nat}
    {drop : WarningRow → Bool} (hd : Removal db.warnings WarningRow.snapshotId id limit drop removed)
    (hid : db.ofStatus id [.complete] = false) :
    Settles db (db.dropWarnings drop) ∧ Elsewhere id db (db.dropWarnings drop) := by
  refine ⟨⟨h.dropWarnings _, recovered_dropWarnings ?_⟩,
    ⟨fun _ _ => rfl, fun j hj => filter_drop_other hd.mine hj, fun _ _ => Iff.rfl⟩⟩
  intro w hw hdrop
  rwa [hd.mine w hw hdrop]

end Repository
end LocalVault
