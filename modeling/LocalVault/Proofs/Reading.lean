import LocalVault.Library.Keyed
import LocalVault.Database.Integrity
import LocalVault.Proofs.Phases

namespace LocalVault
open Library

/-- An intact object passes every check of a verified read. -/
theorem readVerified_intact {x : Externals} {chunkSize : Nat} {objects : Objects} {chunk : ChunkRow}
    {raw : Bytes} (h : ObjectIntact x chunkSize objects chunk raw)
    (hlimit : chunkSize ≤ permanentMaximumChunkSize) :
    readVerified x chunkSize objects chunk.hash chunk.objectPath raw.length
      chunk.compressedSize.toNat = .ok raw := by
  obtain ⟨content, hobject, hsize, hne, hbound, hraw⟩ := h.object
  have hvalid : requireValidHash chunk.hash .objectCorrupt = .ok () := by
    simp [requireValidHash, ← h.hash, hashRaw, toHex_lowercase]
  have hpos : 0 < raw.length := List.length_pos_of_ne_nil h.nonempty
  have hcpos : 0 < content.length := List.length_pos_of_ne_nil hne
  have hfits := h.limit
  have hstored : chunk.compressedSize.toNat = content.length := by omega
  have hmax : permanentMaximumChunkSize + compressedSizeAllowance ≤ maximumByteCount := by decide
  unfold readVerified
  rw [hvalid]
  simp only [bind, Except.bind, h.path, ne_eq, not_true_eq_false, ↓reduceIte, hstored]
  rw [if_neg (by omega), if_neg (by omega)]
  simp only [regularFileSize, hobject]
  rw [if_neg (by omega)]
  simp only [not_true_eq_false, ↓reduceIte, readExact, hobject, Nat.lt_irrefl, List.take_length,
    hraw, h.hash]

/-- The reference that a joined row is read as. -/
def reference (row : EntryChunkRow) (chunk : ChunkRow) : ChunkReferenceInfo :=
  ⟨row.sequenceNumber, row.chunkHash, chunk.objectPath, row.rawOffset.toNat, row.rawLength.toNat,
    chunk.rawSize.toNat, chunk.compressedSize.toNat⟩

theorem readRows_map {ρ α : Type} {read : ρ → Except LocalVaultError α} {f : ρ → α} {rows : List ρ}
    (h : ∀ r ∈ rows, read r = .ok (f r)) : readRows read rows = .ok (rows.map f) := by
  induction rows with
  | nil => rfl
  | cons r rs ih =>
    unfold readRows
    exact bind_ok.mpr ⟨f r, h r (by simp),
      bind_ok.mpr ⟨rs.map f, ih (fun s hs => h s (List.mem_cons_of_mem _ hs)), rfl⟩⟩

/-- The chunk row a reference names, where there is one. -/
def Database.chunkOf (db : Database) (row : EntryChunkRow) : ChunkRow :=
  (db.chunk row.chunkHash).getD ⟨row.chunkHash, 0, 0, [], 0⟩

section Read

variable {x : Externals} {chunkSize : Nat} {db : Database} {objects : Objects} {e : EntryRow}
  {rows : List EntryChunkRow} {parts : List Bytes} {content : Bytes}

theorem ChunkIntact.object (keyed : db.Keyed) {row : EntryChunkRow} {part : Bytes}
    (h : ChunkIntact x chunkSize db objects row part) :
    db.chunkOf row ∈ db.chunks ∧ (db.chunkOf row).hash = row.chunkHash ∧
      ObjectIntact x chunkSize objects (db.chunkOf row) part := by
  obtain ⟨_, chunk, hc, hh, ho⟩ := h
  have hfind : db.chunk row.chunkHash = some chunk := by
    rw [← hh]
    exact find_key keyed.chunks hc
  have he : db.chunkOf row = chunk := by simp [Database.chunkOf, hfind]
  rw [he]
  exact ⟨hc, hh, ho⟩

/-- The join of `list_entry_chunks` meets each reference with its chunk. -/
theorem joinedEntryChunks_eq (keyed : db.Keyed) (he : e ∈ db.entries) {s : SnapshotRow}
    (hs : s ∈ db.snapshots) (hid : s.id = e.snapshotId) (hc : s.status = .complete)
    (hchunk : ∀ row ∈ db.entryChunksOf e.id, db.chunkOf row ∈ db.chunks ∧
      (db.chunkOf row).hash = row.chunkHash) :
    joinedEntryChunks db e.id = (db.fileChunks e.id).map (fun row => (row, db.chunkOf row)) := by
  have hentry := filter_key keyed.entries he
  have hsnap : db.snapshots.filter (fun s => s.id == e.snapshotId && s.status == .complete) = [s] := by
    have := filter_key keyed.snapshots hs
    rw [← hid, ← List.filter_filter, List.filter_comm, this]
    simp [hc]
  have hrow : ∀ row ∈ db.entryChunksOf e.id,
      ((db.chunks.filter (fun c => c.hash == row.chunkHash)).flatMap (fun c =>
        (db.entries.filter (fun e => e.id == row.entryId)).flatMap (fun e =>
          (db.snapshots.filter (fun s => s.id == e.snapshotId && s.status == .complete)).map
            (fun _ => (row, c))))) = [(row, db.chunkOf row)] := by
    intro row hm
    obtain ⟨hmem, hhash⟩ := hchunk row hm
    have hid' : row.entryId = e.id := by simpa using (List.mem_filter.mp hm).2
    rw [← hhash, filter_key keyed.chunks hmem, hid', hentry]
    simp [hsnap]
  unfold joinedEntryChunks
  have hflat : (db.entryChunksOf e.id).flatMap (fun ec =>
      (db.chunks.filter (fun c => c.hash == ec.chunkHash)).flatMap (fun c =>
        (db.entries.filter (fun e => e.id == ec.entryId)).flatMap (fun e =>
          (db.snapshots.filter (fun s => s.id == e.snapshotId && s.status == .complete)).map
            (fun _ => (ec, c))))) =
      (db.entryChunksOf e.id).map (fun row => (row, db.chunkOf row)) := by
    rw [← List.flatMap_pure_eq_map]
    exact List.flatMap_congr hrow
  rw [show db.entryChunks.filter (fun c => c.entryId == e.id) = db.entryChunksOf e.id from rfl,
    hflat, Database.fileChunks]
  symm
  apply List.map_insertionSort
  intro a _ b _
  rfl

theorem contiguous_offsets {number offset : Int} (h : Contiguous number offset rows)
    (ho : 0 ≤ offset) (hl : ∀ row ∈ rows, 0 ≤ row.rawLength) : ∀ row ∈ rows, 0 ≤ row.rawOffset := by
  induction rows generalizing number offset with
  | nil => simp
  | cons r rs ih =>
    obtain ⟨_, hr, hrest⟩ := h
    have hlen := hl r (by simp)
    intro row hm
    rcases List.mem_cons.mp hm with rfl | hm
    · omega
    · exact ih hrest (by omega) (fun s hs => hl s (List.mem_cons_of_mem _ hs)) row hm

theorem readChunkReference_intact (keyed : db.Keyed) {row : EntryChunkRow} {part : Bytes}
    (h : ChunkIntact x chunkSize db objects row part) (ho : 0 ≤ row.rawOffset) :
    readChunkReference (row, db.chunkOf row) = .ok (reference row (db.chunkOf row)) := by
  obtain ⟨_, _, hobj⟩ := h.object keyed
  have hlen := h.1
  have hraw := hobj.rawSize
  obtain ⟨content, _, hsize, _⟩ := hobj.object
  unfold readChunkReference checkedByteCount
  simp only [bind, Except.bind]
  rw [if_neg (by omega), if_neg (by omega), if_neg (by omega), if_neg (by omega)]
  rfl

/-- The chunk list of an intact file is read as its rows say. -/
theorem listEntryChunks_intact (keyed : db.Keyed) (he : e ∈ db.entries) {s : SnapshotRow}
    (hs : s ∈ db.snapshots) (hid : s.id = e.snapshotId) (hc : s.status = .complete)
    (h : FileIntact x chunkSize db objects e content) :
    listEntryChunks db e.id =
      .ok ((db.fileChunks e.id).map (fun row => reference row (db.chunkOf row))) := by
  obtain ⟨parts, hparts, _⟩ := h.parts
  have hall : ∀ row ∈ db.fileChunks e.id, ∃ part, ChunkIntact x chunkSize db objects row part := by
    intro row hm
    obtain ⟨i, hi, rfl⟩ := List.getElem_of_mem hm
    exact ⟨_, hparts.get hi (hparts.length_eq ▸ hi)⟩
  have hmem : ∀ row, row ∈ db.entryChunksOf e.id ↔ row ∈ db.fileChunks e.id :=
    fun row => (List.mem_insertionSort _).symm
  have hoff := contiguous_offsets h.contiguous le_rfl (fun row hm => by
    obtain ⟨part, hpart⟩ := hall row hm
    have := hpart.1
    omega)
  unfold listEntryChunks
  rw [joinedEntryChunks_eq keyed he hs hid hc (fun row hm => by
    obtain ⟨part, hpart⟩ := hall row ((hmem row).mp hm)
    exact ⟨(hpart.object keyed).1, (hpart.object keyed).2.1⟩)]
  have hrows : ∀ p ∈ (db.fileChunks e.id).map (fun row => (row, db.chunkOf row)),
      readChunkReference p = .ok (reference p.1 p.2) := by
    intro p hp
    obtain ⟨row, hm, rfl⟩ := List.mem_map.mp hp
    obtain ⟨part, hpart⟩ := hall row hm
    exact readChunkReference_intact keyed hpart (hoff row hm)
  rw [readRows_map hrows, List.map_map]
  rfl

end Read

namespace Restore

section Validate

variable {x : Externals} {chunkSize : Nat} {db : Database} {objects : Objects}
  {rows : List EntryChunkRow} {parts : List Bytes}

theorem storedSize_fits (hlimit : chunkSize ≤ permanentMaximumChunkSize) :
    chunkSize + compressedSizeAllowance ≤ maximumStoredSize chunkSize ∧
      maximumStoredSize chunkSize ≤ maximumByteCount := by
  have hm : permanentMaximumChunkSize + permanentMaximumChunkSize / 8 + 64 * 1024 ≤
      maximumByteCount := by decide
  have hd : chunkSize / 8 ≤ permanentMaximumChunkSize / 8 := Nat.div_le_div_right hlimit
  unfold maximumStoredSize compressedSizeAllowance
  dsimp only
  rw [if_neg (by omega), if_neg (by omega)]
  omega

theorem validateChunksFrom_intact (keyed : db.Keyed) (entry : EntryInfo)
    (hlimit : chunkSize ≤ permanentMaximumChunkSize) {k : Int} {o : Nat} (hc : Contiguous k o rows)
    (hparts : List.Forall₂ (ChunkIntact x chunkSize db objects) rows parts)
    (hk : k + rows.length ≤ maximumInt64) (ho : o + parts.flatten.length ≤ maximumByteCount) :
    validateChunksFrom entry chunkSize k o
        (rows.map (fun row => reference row (db.chunkOf row))) =
      .ok (o + parts.flatten.length) := by
  induction hparts generalizing k o with
  | nil => simp [validateChunksFrom]
  | @cons row part rows parts hpart hrest ih =>
    obtain ⟨hnum, hoff, hcont⟩ := hc
    obtain ⟨_, hh, hobj⟩ := hpart.object keyed
    have hlen := hpart.1
    have hraw := hobj.rawSize
    have hpos := List.length_pos_of_ne_nil hobj.nonempty
    have hle := hobj.limit
    obtain ⟨content, _, hsize, hne, hbound, _⟩ := hobj.object
    have hcpos := List.length_pos_of_ne_nil hne
    obtain ⟨hfit, hmax⟩ := storedSize_fits hlimit
    simp only [List.flatten_cons, List.length_append, List.length_cons] at ho hk
    have hnext : Contiguous (k + 1) ((o + part.length : Nat) : Int) rows := by
      rw [show ((o + part.length : Nat) : Int) = o + row.rawLength by omega]
      exact hcont
    have hrec := ih hnext (by omega) (by omega)
    rw [List.map_cons, validateChunksFrom]
    generalize rows.map (fun row => reference row (db.chunkOf row)) = listed at hrec ⊢
    simp only [reference, hnum, hoff, checkedAdd]
    rw [if_neg (by omega), if_neg (by omega)]
    dsimp only
    rw [if_neg (by omega), show o + row.rawLength.toNat = o + part.length by omega, hrec]
    simp only [List.flatten_cons, List.length_append]
    rw [Nat.add_assoc]

theorem parts_length (hparts : List.Forall₂ (ChunkIntact x chunkSize db objects) rows parts) :
    rows.length ≤ parts.flatten.length := by
  induction hparts with
  | nil => simp
  | cons hpart _ ih =>
    obtain ⟨_, chunk, _, _, hobj⟩ := hpart
    have := List.length_pos_of_ne_nil hobj.nonempty
    simp only [List.length_cons, List.flatten_cons, List.length_append]
    omega

theorem validateChunks_intact (keyed : db.Keyed) {e : EntryRow} {entry : EntryInfo} {content : Bytes}
    (hlimit : chunkSize ≤ permanentMaximumChunkSize)
    (h : FileIntact x chunkSize db objects e content) (hsize : entry.logicalSize = content.length)
    (hmax : content.length ≤ maximumInt64) :
    validateChunks entry ((db.fileChunks e.id).map (fun row => reference row (db.chunkOf row)))
      chunkSize = .ok () := by
  obtain ⟨parts, hparts, rfl⟩ := h.parts
  have hcount := parts_length hparts
  have hbytes : maximumInt64 ≤ maximumByteCount := by decide
  unfold validateChunks
  rw [validateChunksFrom_intact (k := 0) (o := 0) keyed entry hlimit h.contiguous hparts
    (by omega) (by omega)]
  dsimp only
  rw [if_neg]
  rw [hsize, Nat.zero_add]
  simp only [ne_eq, not_true_eq_false, false_or, List.map_eq_nil_iff, not_or, not_and, not_not]
  constructor
  · intro hz
    exact List.length_eq_zero_iff.mp (by omega)
  · intro hz hrows
    rw [hrows] at hparts
    cases hparts
    exact hz rfl

end Validate
end Restore
end LocalVault
