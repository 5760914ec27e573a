import LocalVault.Snapshot.Spool

namespace LocalVault.Snapshot
open Library

variable {s : ChunkReferenceSpool} {l : SpoolList} {e : LocalVaultError}

/-! The file of a spool holds the references that the pipeline has in a list. -/

theorem view_of {object : SpooledObject} {rawOffset : UInt64} {sequenceNumber : Int64}
    (h : object.hashHex.length = 64) :
    (SpoolRecord.of object rawOffset sequenceNumber h).view =
      ⟨object.hashHex, rawOffset.toNat, sequenceNumber.toInt, object.rawSize.toNat,
        object.storedSize.toNat, object.newlyStored⟩ := by
  have hnew : ((if object.newlyStored then (1 : UInt8) else 0) != 0) = object.newlyStored := by
    cases object.newlyStored <;> rfl
  rw [SpoolRecord.view, SpoolRecord.of, hnew]

/-- The spool file, the records in it, and their list in the pipeline. -/
structure Spools (s : ChunkReferenceSpool) (l : SpoolList) (t : Tape SpoolRecord) : Prop where
  path : s.path = l.path
  file : Holds SpoolRecord.codec s.file t
  tape : l.tape = ⟨t.records.map SpoolRecord.view, t.cursor⟩

/-- A call for one record is the same call for the reference that is seen in it. -/
def FileCall.viewed : FileCall SpoolRecord → FileCall ChunkReferenceRecord
  | .append r => .append r.view
  | .rewind opens => .rewind opens
  | .read => .read

theorem tape_viewed (t : Tape SpoolRecord) (call : FileCall SpoolRecord) :
    let viewed : Tape ChunkReferenceRecord := ⟨t.records.map SpoolRecord.view, t.cursor⟩
    SpoolAnswer.of id e (viewed.step (FileCall.viewed call)).1 =
        SpoolAnswer.of SpoolRecord.view e (t.step call).1 ∧
      (viewed.step (FileCall.viewed call)).2 =
        ⟨(t.step call).2.records.map SpoolRecord.view, (t.step call).2.cursor⟩ := by
  intro viewed
  cases call with
  | append r => exact ⟨rfl, by simp [viewed, FileCall.viewed, Tape.step]⟩
  | rewind opens => cases opens <;> exact ⟨rfl, rfl⟩
  | read =>
    cases ht : t.cursor with
    | closed => simp [viewed, FileCall.viewed, Tape.step, ht, SpoolAnswer.of]
    | failed => simp [viewed, FileCall.viewed, Tape.step, ht, SpoolAnswer.of]
    | reading position =>
      cases hr : t.records[position]? with
      | none => simp [viewed, FileCall.viewed, Tape.step, ht, hr, SpoolAnswer.of]
      | some r => simp [viewed, FileCall.viewed, Tape.step, ht, hr, SpoolAnswer.of]

theorem Spools.calls {t : Tape SpoolRecord} (h : Spools s l t) (call : FileCall SpoolRecord) :
    (s.calls e call).1 = (l.calls e (FileCall.viewed call)).1 ∧
      Spools (s.calls e call).2 (l.calls e (FileCall.viewed call)).2 (t.step call).2 := by
  obtain ⟨hanswer, hfile⟩ := h.file.step (by decide) call
  obtain ⟨hviewed, htape⟩ := tape_viewed (e := e) t call
  refine ⟨?_, h.path, hfile, ?_⟩
  · change SpoolAnswer.of SpoolRecord.view e (s.file.step SpoolRecord.codec call).1 =
      SpoolAnswer.of id e (l.tape.step (FileCall.viewed call)).1
    rw [hanswer, h.tape, hviewed]
  · change (l.tape.step (FileCall.viewed call)).2 = _
    rw [h.tape]
    exact htape

theorem Spools.step {t : Tape SpoolRecord} (h : Spools s l t) (call : SpoolCall) :
    (s.step call).1 = (l.step call).1 ∧ ∃ t', Spools (s.step call).2 (l.step call).2 t' := by
  cases call with
  | append object rawOffset sequenceNumber =>
    by_cases hlength : object.hashHex.length = 64
    · obtain ⟨hanswer, hnext⟩ := h.calls (e := invalidSpoolHash)
        (.append (.of object rawOffset sequenceNumber hlength))
      simp only [FileCall.viewed, view_of] at hanswer hnext
      simp only [ChunkReferenceSpool.step, SpoolList.step, hlength, ↓reduceDIte, ↓reduceIte]
      exact ⟨hanswer, _, hnext⟩
    · simp only [ChunkReferenceSpool.step, SpoolList.step, hlength, ↓reduceDIte, ↓reduceIte]
      exact ⟨trivial, t, h⟩
  | rewindForReading opens =>
    obtain ⟨hanswer, hnext⟩ := h.calls (e := spoolNotOpened s.path) (.rewind opens)
    simp only [ChunkReferenceSpool.step, SpoolList.step, ← h.path]
    exact ⟨hanswer, _, hnext⟩
  | read =>
    obtain ⟨hanswer, hnext⟩ := h.calls (e := spoolNotRead s.path) .read
    simp only [ChunkReferenceSpool.step, SpoolList.step, ← h.path]
    exact ⟨hanswer, _, hnext⟩

/-- Whatever is appended, rewound and read in whatever order, the spool file gives the references
of the list back, one by one, and fails where the list has come to its end. -/
theorem spool_answers (path : Path) (calls : List SpoolCall) :
    (answers ChunkReferenceSpool.step (.create path) calls).1 =
      (answers SpoolList.step (.create path) calls).1 := by
  have hstart : ∃ t, Spools (.create path) (.create path) t :=
    ⟨⟨[], .closed⟩, rfl, ⟨rfl, rfl, nofun⟩, rfl⟩
  generalize ChunkReferenceSpool.create path = s at hstart ⊢
  generalize SpoolList.create path = l at hstart ⊢
  induction calls generalizing s l with
  | nil => rfl
  | cons call calls ih =>
    obtain ⟨t, h⟩ := hstart
    obtain ⟨hanswer, hnext⟩ := h.step call
    rw [answers_cons, answers_cons, hanswer, ih _ _ hnext]

end LocalVault.Snapshot
