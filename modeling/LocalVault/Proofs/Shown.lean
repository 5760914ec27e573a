import LocalVault.Library.Histories
import LocalVault.Proofs.Settling
import LocalVault.Proofs.Totals

namespace LocalVault
open Library

/-- Everything a complete snapshot consists of. -/
structure Published where
  row : SnapshotRow
  entries : List EntryRow
  references : List EntryChunkRow
  warnings : List WarningRow
  deriving DecidableEq, Repr

def Database.completeRow (db : Database) (id : SnapshotId) : Option SnapshotRow :=
  db.snapshots.find? (fun s => s.id == id && s.status == .complete)

def Database.published (db : Database) (id : SnapshotId) : Option Published :=
  (db.completeRow id).map (fun row =>
    ⟨row, db.entriesOf id, db.referencesOf id, db.warningsOf id⟩)

/-- A repository as its readers see it: complete snapshots under their identifiers. -/
def Database.catalogue (db : Database) : Catalogue SnapshotId Published :=
  ⟨db.lastSnapshotId, db.published⟩

variable {db db' mid : Database} {id j : SnapshotId}

theorem completeRow_none : db.completeRow id = none ↔ db.ofStatus id [.complete] = false := by
  simp [Database.completeRow, Database.ofStatus]

theorem published_none : db.published id = none ↔ db.ofStatus id [.complete] = false := by
  rw [Database.published, Option.map_eq_none_iff, completeRow_none]

/-- A complete snapshot is one that is shown. -/
theorem published_some : (∃ shown, db.published id = some shown) ↔
    db.ofStatus id [.complete] = true := by
  rw [← Option.isSome_iff_exists, ← Option.ne_none_iff_isSome, Ne, published_none,
    Bool.not_eq_false]

/-- What is shown depends on the complete row, and then on its rows. -/
theorem published_congr (hrow : db'.completeRow id = db.completeRow id)
    (hrest : db.ofStatus id [.complete] = true → db'.entriesOf id = db.entriesOf id ∧
      db'.referencesOf id = db.referencesOf id ∧ db'.warningsOf id = db.warningsOf id) :
    db'.published id = db.published id := by
  cases hshown : db.ofStatus id [.complete] with
  | false =>
    have hnone := completeRow_none.mpr hshown
    simp [Database.published, hrow, hnone]
  | true =>
    obtain ⟨hentries, hreferences, hwarnings⟩ := hrest hshown
    unfold Database.published
    rw [hrow, hentries, hreferences, hwarnings]

/-- Only rows of one snapshot differ. -/
structure Leaves (id : SnapshotId) (db db' : Database) : Prop where
  row : ∀ j, j ≠ id → db'.completeRow j = db.completeRow j
  entries : ∀ j, j ≠ id → db'.entriesOf j = db.entriesOf j
  references : ∀ j, j ≠ id → db'.referencesOf j = db.referencesOf j
  warnings : ∀ j, j ≠ id → db'.warningsOf j = db.warningsOf j

namespace Leaves

theorem refl (id : SnapshotId) (db : Database) : Leaves id db db :=
  ⟨fun _ _ => rfl, fun _ _ => rfl, fun _ _ => rfl, fun _ _ => rfl⟩

theorem trans (h : Leaves id db mid) (h' : Leaves id mid db') : Leaves id db db' where
  row j hj := (h'.row j hj).trans (h.row j hj)
  entries j hj := (h'.entries j hj).trans (h.entries j hj)
  references j hj := (h'.references j hj).trans (h.references j hj)
  warnings j hj := (h'.warnings j hj).trans (h.warnings j hj)

theorem other (h : Leaves id db db') (hj : j ≠ id) : db'.published j = db.published j :=
  published_congr (h.row j hj) fun _ => ⟨h.entries j hj, h.references j hj, h.warnings j hj⟩

theorem published (h : Leaves id db db') :
    db'.published = Function.update db.published id (db'.published id) := by
  funext j
  by_cases hj : j = id
  · subst hj
    rw [Function.update_self]
  · rw [h.other hj, Function.update_of_ne hj]

/-- A snapshot that is complete neither before nor after is not seen at all. -/
theorem unseen (h : Leaves id db db') (hdb : db.ofStatus id [.complete] = false)
    (hdb' : db'.ofStatus id [.complete] = false) : db'.published = db.published := by
  rw [h.published, published_none.mpr hdb', ← published_none.mpr hdb]
  exact Function.update_eq_self id db.published

end Leaves

/-- The rows of the other tables stay, and the snapshot rows of others as far as they are
complete. -/
theorem leaves_snapshots {rows : List SnapshotRow}
    (h : ∀ j, j ≠ id → Database.completeRow { db with snapshots := rows } j = db.completeRow j) :
    Leaves id db { db with snapshots := rows } :=
  ⟨h, fun _ _ => rfl, fun _ _ => rfl, fun _ _ => rfl⟩

theorem leaves_withSnapshots {change : SnapshotRow → SnapshotRow}
    (hid : ∀ s, (change s).id = s.id) (hother : ∀ s, s.id ≠ id → change s = s) :
    Leaves id db (db.withSnapshots change) := by
  refine leaves_snapshots fun j hj => ?_
  change (db.snapshots.map change).find? _ = db.snapshots.find? _
  rw [List.find?_map]
  have hsame : ∀ s : SnapshotRow, ((fun s : SnapshotRow => s.id == j && s.status == .complete) ∘
      change) s = (s.id == j && s.status == .complete) := by
    intro s
    change ((change s).id == j && (change s).status == .complete) = _
    by_cases hs : s.id = id
    · have hne : (s.id == j) = false := beq_eq_false_iff_ne.mpr (hs ▸ hj.symm)
      rw [hid, hne, Bool.false_and, Bool.false_and]
    · rw [hother s hs]
  rw [funext hsame]
  cases hfound : db.snapshots.find? (fun s => s.id == j && s.status == .complete) with
  | none => rfl
  | some s =>
    have hs := List.find?_some hfound
    simp only [Bool.and_eq_true, beq_iff_eq] at hs
    rw [Option.map_some, hother s (hs.1 ▸ hj)]

/-- A row that is not complete does not change what is shown. -/
theorem leaves_row {row : SnapshotRow} (hrow : row.status ≠ .complete) (last : Nat) :
    Leaves row.id db { db with snapshots := db.snapshots ++ [row], lastSnapshotId := last } := by
  refine ⟨fun j _ => ?_, fun _ _ => rfl, fun _ _ => rfl, fun _ _ => rfl⟩
  unfold Database.completeRow
  dsimp only
  rw [List.find?_append, List.find?_singleton, if_neg (by simp [hrow]), Option.or_none]

namespace Repository

theorem settled_status (s : SnapshotRow) :
    s.settled.untimed.status = .complete ↔ s.status = .complete := by
  unfold SnapshotRow.settled SnapshotRow.untimed SnapshotRow.abandoned
  by_cases hpending : s.status = .pending
  · simp [hpending]
  · simp only [hpending, if_false]
    split <;> exact Iff.rfl

/-- Recovery leaves a complete row as it is. -/
theorem completeRow_recovered : db.recovered.completeRow id = db.completeRow id := by
  have hid : ∀ s : SnapshotRow, s.settled.untimed.id = s.id := by
    intro s
    unfold SnapshotRow.settled SnapshotRow.untimed SnapshotRow.abandoned
    split <;> split <;> rfl
  unfold Database.completeRow Database.recovered
  dsimp only
  rw [List.find?_map, List.find?_filter]
  have hsame : ∀ s : SnapshotRow, (s.status != .deleting &&
      ((fun s : SnapshotRow => s.id == id && s.status == .complete) ∘
        fun s => s.settled.untimed) s) = (s.id == id && s.status == .complete) := by
    intro s
    by_cases hs : s.status = .complete
    · simp [hid, (settled_status s).mpr hs, hs]
    · have hkept : (s.settled.untimed.status == SnapshotStatus.complete) = false :=
        beq_eq_false_iff_ne.mpr (mt (settled_status s).mp hs)
      simp [hkept, beq_eq_false_iff_ne.mpr hs]
  simp only [Bool.decide_and, Bool.decide_eq_true, hsame]
  cases hfound : db.snapshots.find? (fun s => s.id == id && s.status == .complete) with
  | none => rfl
  | some s =>
    have hs := List.find?_some hfound
    simp only [Bool.and_eq_true, beq_iff_eq] at hs
    have hsettled : s.settled = s := by simp [SnapshotRow.settled, hs.2]
    rw [Option.map_some, hsettled, untimed_complete hs.2]

/-- What readers see is what recovery keeps. -/
theorem published_recovered : db.recovered.published = db.published := by
  funext id
  refine published_congr completeRow_recovered fun hid => ⟨?_, ?_, ?_⟩
  · unfold Database.entriesOf Database.recovered Database.keptEntries
    rw [List.filter_filter]
    refine List.filter_congr fun e _ => ?_
    by_cases he : e.snapshotId = id
    · simp [he, hid]
    · simp [he]
  · have hkept : ∀ c : EntryChunkRow, (db.recovered.entriesOf id).any (fun e => e.id == c.entryId) =
        (db.entriesOf id).any (fun e => e.id == c.entryId) := by
      intro c
      congr 1
      unfold Database.entriesOf Database.recovered Database.keptEntries
      rw [List.filter_filter]
      refine List.filter_congr fun e _ => ?_
      by_cases he : e.snapshotId = id
      · simp [he, hid]
      · simp [he]
    unfold Database.referencesOf
    simp only [hkept]
    unfold Database.recovered
    rw [List.filter_filter]
    refine List.filter_congr fun c _ => ?_
    cases hany : (db.entriesOf id).any (fun e => e.id == c.entryId) with
    | false => rfl
    | true =>
      obtain ⟨e, he, hc⟩ := List.any_eq_true.mp hany
      obtain ⟨he, heid⟩ := List.mem_filter.mp he
      rw [Bool.true_and, List.any_eq_true]
      refine ⟨e, List.mem_filter.mpr ⟨he, ?_⟩, hc⟩
      rw [beq_iff_eq.mp heid]
      exact hid
  · unfold Database.warningsOf Database.recovered
    rw [List.filter_filter]
    refine List.filter_congr fun w _ => ?_
    by_cases hw : w.snapshotId = id
    · simp [hw, hid]
    · simp [hw]

/-- Tables that settle to the same show the same. -/
theorem Settles.published (h : Settles db db') : db'.published = db.published := by
  rw [← published_recovered, h.recovered, published_recovered]

theorem Settles.chunks (h : Settles db db') : db'.chunks = db.chunks :=
  (congrArg Database.chunks h.recovered : db'.recovered.chunks = db.recovered.chunks)

theorem Settles.lastSnapshotId (h : Settles db db') : db'.lastSnapshotId = db.lastSnapshotId :=
  (congrArg Database.lastSnapshotId h.recovered :
    db'.recovered.lastSnapshotId = db.recovered.lastSnapshotId)

theorem Settles.catalogue (h : Settles db db') : db'.catalogue = db.catalogue := by
  unfold Database.catalogue
  rw [h.published, h.lastSnapshotId]

end Repository
end LocalVault
