import Mathlib.Data.UInt
import LocalVault.Proofs.Temporaries
import LocalVault.Restore.Words

namespace LocalVault.Restore
open Library Library.Program

namespace Words

variable {left right chunkSize : UInt64} {path : Path}

theorem maximum_toNat : maximum.toNat = maximumByteCount := rfl

theorem toNat_le (a : UInt64) : a.toNat ≤ maximumByteCount := by
  have := a.toNat_lt
  unfold maximumByteCount
  omega

theorem maximum_sub : (maximum - left).toNat = maximumByteCount - left.toNat :=
  UInt64.toNat_sub_of_le _ _ (UInt64.le_iff_toNat_le.mpr (toNat_le left))

theorem exceeds_iff : right > maximum - left ↔ maximumByteCount - left.toNat < right.toNat := by
  rw [gt_iff_lt, UInt64.lt_iff_toNat_lt, maximum_sub]

/-- A sum that is not refused does not wrap. -/
theorem add_toNat (h : ¬ maximumByteCount - left.toNat < right.toNat) :
    (left + right).toNat = left.toNat + right.toNat := by
  have := toNat_le left
  rw [UInt64.toNat_add, Nat.mod_eq_of_lt]
  unfold maximumByteCount at *
  omega

theorem checkedAdd_eq :
    (checkedAdd left right path).map UInt64.toNat = Restore.checkedAdd left.toNat right.toNat path := by
  unfold checkedAdd Restore.checkedAdd
  simp only [exceeds_iff]
  by_cases h : maximumByteCount - left.toNat < right.toNat
  · rw [if_pos h, if_pos h]
    rfl
  · rw [if_neg h, if_neg h]
    exact congrArg Except.ok (add_toNat h)

theorem maximumStoredSize_eq :
    (maximumStoredSize chunkSize).toNat = Restore.maximumStoredSize chunkSize.toNat := by
  have hdiv : (chunkSize / 8).toNat = chunkSize.toNat / 8 := by simp
  have hover : (64 * 1024 : UInt64).toNat = 64 * 1024 := rfl
  unfold maximumStoredSize Restore.maximumStoredSize
  simp only [exceeds_iff, hover]
  rw [hdiv]
  by_cases h : maximumByteCount - chunkSize.toNat < chunkSize.toNat / 8
  · rw [if_pos h, if_pos h, maximum_toNat]
  · rw [if_neg h, if_neg h]
    rw [← hdiv] at h
    rw [add_toNat h, hdiv]
    by_cases h' : maximumByteCount - (chunkSize.toNat + chunkSize.toNat / 8) < 64 * 1024
    · rw [if_pos h', if_pos h', maximum_toNat]
    · rw [if_neg h', if_neg h']
      rw [← hdiv, ← add_toNat h, ← hover] at h'
      rw [add_toNat h', add_toNat h, hdiv, hover]

/-- Within the range of chunk sizes the stored limit is the sum it is meant to be. -/
theorem maximumStoredSize_small (h : chunkSize ≤ 4 * 1024 * 1024) :
    (maximumStoredSize chunkSize).toNat =
      chunkSize.toNat + chunkSize.toNat / 8 + 64 * 1024 := by
  have hsmall : chunkSize.toNat ≤ 4 * 1024 * 1024 := UInt64.le_iff_toNat_le.mp h
  rw [maximumStoredSize_eq]
  unfold Restore.maximumStoredSize maximumByteCount
  dsimp only
  rw [if_neg (by omega), if_neg (by omega)]

theorem maxValue_toInt : Int64.maxValue.toInt = 2 ^ 63 - 1 := by decide

theorem eq_maxValue {k : Int64} : k = Int64.maxValue ↔ k.toInt = 2 ^ 63 - 1 := by
  rw [← Int64.toInt_inj, maxValue_toInt]

theorem succ_toInt {k : Int64} (h : k ≠ Int64.maxValue) : (k + 1).toInt = k.toInt + 1 := by
  have hle := k.toInt_le
  have hge := k.le_toInt
  rw [maxValue_toInt] at hle
  rw [ne_eq, eq_maxValue] at h
  rw [Int64.toInt_add, Int64.toInt_one]
  exact Int.bmod_eq_of_le (by omega) (by omega)

end Words

/-- A chunk that may stand at place `i`, behind `offset` bytes. -/
structure Follows (chunkSize : Nat) (i : Nat) (offset : Nat) (chunk : ChunkReferenceInfo) :
    Prop where
  sequenceNumber : chunk.sequenceNumber = i
  rawOffset : chunk.rawOffset = offset
  rawLength : 1 ≤ chunk.rawLength ∧ chunk.rawLength ≤ chunkSize
  rawSize : chunk.rawLength = chunk.rawSize
  storedSize : 1 ≤ chunk.storedSize ∧ chunk.storedSize ≤ maximumStoredSize chunkSize

/-- The sum of the raw lengths. -/
def rawTotal (chunks : List ChunkReferenceInfo) : Nat :=
  (chunks.map ChunkReferenceInfo.rawLength).sum

/-- The well-formed layouts of an entry of `logicalSize` bytes. -/
structure WellFormedLayout (logicalSize chunkSize : Nat) (chunks : List ChunkReferenceInfo) :
    Prop where
  follows : ∀ i chunk, chunks[i]? = some chunk →
    Follows chunkSize i (rawTotal (chunks.take i)) chunk
  total : rawTotal chunks = logicalSize

section Layout

variable {logicalSize chunkSize : Nat} {chunks : List ChunkReferenceInfo}
  {chunk : ChunkReferenceInfo}

@[simp] theorem rawTotal_nil : rawTotal [] = 0 := rfl

@[simp] theorem rawTotal_concat :
    rawTotal (chunks ++ [chunk]) = rawTotal chunks + chunk.rawLength := by
  simp [rawTotal]

/-- A layout grows at its end. -/
theorem wellFormedLayout_concat :
    WellFormedLayout logicalSize chunkSize (chunks ++ [chunk]) ↔
      WellFormedLayout (rawTotal chunks) chunkSize chunks ∧
        Follows chunkSize chunks.length (rawTotal chunks) chunk ∧
        rawTotal chunks + chunk.rawLength = logicalSize := by
  constructor
  · intro h
    refine ⟨⟨fun i c hc => ?_, rfl⟩, ?_, ?_⟩
    · have hi : i < chunks.length := (List.getElem?_eq_some_iff.mp hc).1
      have := h.follows i c (by rw [List.getElem?_append_left hi, hc])
      rwa [List.take_append_of_le_length hi.le] at this
    · have := h.follows chunks.length chunk (by simp)
      rwa [List.take_left] at this
    · rw [← h.total, rawTotal_concat]
  · rintro ⟨h, hc, ht⟩
    refine ⟨fun i c hi => ?_, by rw [rawTotal_concat, ht]⟩
    rcases Nat.lt_or_ge i chunks.length with hl | hl
    · rw [List.getElem?_append_left hl] at hi
      rw [List.take_append_of_le_length hl.le]
      exact h.follows i c hi
    · rw [List.getElem?_append_right hl, List.getElem?_singleton] at hi
      split at hi
      · cases hi
        have he : i = chunks.length := by omega
        rw [he, List.take_left]
        exact hc
      · cases hi

theorem WellFormedLayout.total_eq_zero (h : WellFormedLayout logicalSize chunkSize chunks) :
    logicalSize = 0 ↔ chunks = [] := by
  rcases List.eq_nil_or_concat chunks with rfl | ⟨earlier, last, rfl⟩
  · simpa using h.total.symm
  · obtain ⟨-, hlast, htotal⟩ := wellFormedLayout_concat.mp (by simpa using h)
    have := hlast.rawLength.1
    simp only [List.concat_eq_append, List.append_eq_nil_iff, List.cons_ne_nil, and_false,
      iff_false]
    omega

end Layout

namespace Words

section Rounds

variable {chunkSize offset offset' : UInt64} {path : Path} {sequence sequence' : Int64}
  {chunk : ChunkReferenceWords} {chunks : List ChunkReferenceWords}

/-- The check of a round on words is the check on the numbers they stand for. -/
theorem refused_iff :
    (chunk.sequenceNumber ≠ sequence ∨ chunk.rawOffset ≠ offset ∨
        chunk.rawLength = 0 ∨ chunk.rawLength ≠ chunk.rawSize ∨ chunk.rawLength > chunkSize ∨
        chunk.rawSize > chunkSize ∨ chunk.storedSize = 0 ∨
        chunk.storedSize > maximumStoredSize chunkSize ∨ chunk.storedSize > maximum) ↔
      (chunk.info.sequenceNumber ≠ sequence.toInt ∨ chunk.info.rawOffset ≠ offset.toNat ∨
        chunk.info.rawLength = 0 ∨ chunk.info.rawLength ≠ chunk.info.rawSize ∨
        chunkSize.toNat < chunk.info.rawLength ∨ chunkSize.toNat < chunk.info.rawSize ∨
        chunk.info.storedSize = 0 ∨
        Restore.maximumStoredSize chunkSize.toNat < chunk.info.storedSize ∨
        maximumByteCount < chunk.info.storedSize) := by
  simp only [ne_eq, gt_iff_lt, UInt64.lt_iff_toNat_lt, ← UInt64.toNat_inj, ← Int64.toInt_inj,
    maximumStoredSize_eq, maximum_toNat, UInt64.toNat_zero, ChunkReferenceWords.info]

theorem follows_iff {i : Nat} (hs : sequence.toInt = i) :
    Follows chunkSize.toNat i offset.toNat chunk.info ↔
      ¬ (chunk.sequenceNumber ≠ sequence ∨ chunk.rawOffset ≠ offset ∨
        chunk.rawLength = 0 ∨ chunk.rawLength ≠ chunk.rawSize ∨ chunk.rawLength > chunkSize ∨
        chunk.rawSize > chunkSize ∨ chunk.storedSize = 0 ∨
        chunk.storedSize > maximumStoredSize chunkSize ∨ chunk.storedSize > maximum) := by
  have hstored : chunk.info.storedSize ≤ maximumByteCount := toNat_le chunk.storedSize
  rw [refused_iff, hs]
  constructor
  · rintro ⟨h1, h2, ⟨h3, h4⟩, h5, h6, h7⟩
    omega
  · intro h
    constructor <;> omega

/-- What one round accepts and how it counts. -/
theorem validateChunk_ok {i : Nat} (hs : sequence.toInt = i) :
    validateChunk path chunkSize (sequence, offset) chunk = .ok (sequence', offset') ↔
      Follows chunkSize.toNat i offset.toNat chunk.info ∧
        offset.toNat + chunk.info.rawLength ≤ maximumByteCount ∧ i + 1 < 2 ^ 63 ∧
        sequence'.toInt = (i + 1 : Nat) ∧
        offset'.toNat = offset.toNat + chunk.info.rawLength := by
  have hlength : chunk.info.rawLength = chunk.rawLength.toNat := rfl
  have hmax : sequence = Int64.maxValue ↔ (i : Int) = 2 ^ 63 - 1 := by rw [eq_maxValue, hs]
  have hrange := sequence.toInt_le
  rw [maxValue_toInt, hs] at hrange
  have hoffset := toNat_le offset
  unfold validateChunk
  dsimp only
  by_cases hfit : Follows chunkSize.toNat i offset.toNat chunk.info
  · rw [if_neg ((follows_iff hs).mp hfit)]
    unfold checkedAdd
    simp only [exceeds_iff]
    by_cases hover : maximumByteCount - offset.toNat < chunk.rawLength.toNat
    · rw [if_pos hover]
      constructor
      · intro h
        cases h
      · rintro ⟨-, h, -⟩
        omega
    · rw [if_neg hover]
      by_cases hlast : sequence = Int64.maxValue
      · constructor
        · intro h
          simp [bind, Except.bind, hlast] at h
        · rintro ⟨-, -, h, -⟩
          have := hmax.mp hlast
          omega
      · have hnext := succ_toInt hlast
        have hsum := add_toNat hover
        have hbelow : (i : Int) ≠ 2 ^ 63 - 1 := fun he => hlast (hmax.mpr he)
        simp only [bind, Except.bind, if_neg hlast, Except.ok.injEq, Prod.mk.injEq]
        rw [← UInt64.toNat_inj, ← Int64.toInt_inj, hnext, hsum, hs, hlength]
        constructor
        · rintro ⟨h, h'⟩
          exact ⟨hfit, by omega, by omega, by omega, by omega⟩
        · rintro ⟨-, -, -, h, h'⟩
          exact ⟨by omega, by omega⟩
  · rw [if_pos (not_not.mp fun h => hfit ((follows_iff hs).mpr h))]
    constructor
    · intro h
      cases h
    · rintro ⟨h, -⟩
      exact absurd h hfit

/-- After the rounds of the first chunks both counters stand at the sums they are meant to be. -/
theorem validateChunk_foldlM :
    chunks.foldlM (validateChunk path chunkSize) (0, 0) = .ok (sequence, offset) ↔
      WellFormedLayout offset.toNat chunkSize.toNat (chunks.map ChunkReferenceWords.info) ∧
        chunks.length < 2 ^ 63 ∧ sequence.toInt = chunks.length := by
  induction chunks using List.reverseRecOn generalizing sequence offset with
  | nil =>
    constructor
    · intro h
      cases h
      exact ⟨⟨fun i c hc => by simp at hc, rfl⟩, by simp, rfl⟩
    · rintro ⟨h, -, hs⟩
      have ho : offset = 0 := UInt64.toNat_inj.mp h.total.symm
      have hq : sequence = 0 := Int64.toInt_inj.mp hs
      rw [ho, hq]
      rfl
  | append_singleton chunks chunk ih =>
    rw [List.foldlM_append, List.map_append, List.map_singleton, wellFormedLayout_concat,
      List.length_append, List.length_singleton, List.length_map, bind_ok]
    constructor
    · rintro ⟨⟨s, o⟩, hbefore, hround⟩
      rw [List.foldlM_cons, bind_ok] at hround
      obtain ⟨⟨s', o'⟩, hround, hdone⟩ := hround
      cases hdone
      obtain ⟨hlaid, -, hs⟩ := ih.mp hbefore
      obtain ⟨hfit, -, hlength, hs', ho'⟩ := (validateChunk_ok hs).mp hround
      have htotal := hlaid.total
      rw [← htotal] at hfit
      exact ⟨⟨by rwa [htotal], hfit, by rw [htotal, ho']⟩, hlength, hs'⟩
    · rintro ⟨⟨hlaid, hfit, htotal⟩, hlength, hs⟩
      have hbound := toNat_le offset
      have hstart : (UInt64.ofNat (rawTotal (chunks.map ChunkReferenceWords.info))).toNat =
          rawTotal (chunks.map ChunkReferenceWords.info) :=
        UInt64.toNat_ofNat_of_lt' (by unfold maximumByteCount at hbound; unfold UInt64.size; omega)
      have hplace : (Int64.ofNat chunks.length).toInt = chunks.length :=
        Int64.toInt_ofNat_of_lt (by omega)
      refine ⟨(Int64.ofNat chunks.length,
        UInt64.ofNat (rawTotal (chunks.map ChunkReferenceWords.info))), ih.mpr ?_, ?_⟩
      · exact ⟨by rwa [hstart], by omega, hplace⟩
      · rw [List.foldlM_cons, bind_ok]
        refine ⟨(sequence, offset), (validateChunk_ok hplace).mpr ?_, rfl⟩
        rw [hstart]
        exact ⟨hfit, by omega, hlength, hs, htotal.symm⟩

end Rounds

section Accepted

variable {relativePath : Bytes} {logicalSize chunkSize : UInt64}
  {chunks : List ChunkReferenceWords}

theorem validateChunks_eq_ok :
    validateChunks relativePath logicalSize chunks chunkSize = .ok () ↔
      WellFormedLayout logicalSize.toNat chunkSize.toNat (chunks.map ChunkReferenceWords.info) ∧
        chunks.length < 2 ^ 63 := by
  unfold validateChunks
  rw [bind_ok]
  constructor
  · rintro ⟨⟨sequence, offset⟩, hrounds, h⟩
    obtain ⟨hlaid, hlength, -⟩ := validateChunk_foldlM.mp hrounds
    split at h
    · cases h
    · rename_i hsame
      have hsize : offset = logicalSize := by
        simpa using (not_or.mp hsame).1
      exact ⟨hsize ▸ hlaid, hlength⟩
  · rintro ⟨hlaid, hlength⟩
    refine ⟨(Int64.ofNat chunks.length, logicalSize), validateChunk_foldlM.mpr
      ⟨hlaid, hlength, Int64.toInt_ofNat_of_lt hlength⟩, ?_⟩
    have hzero : logicalSize = 0 ↔ chunks = [] := by
      rw [← UInt64.toNat_inj, UInt64.toNat_zero, hlaid.total_eq_zero, List.map_eq_nil_iff]
    rw [if_neg]
    simp [hzero]

/-- No word of the loop wraps: it runs as the loop on unbounded numbers does. -/
theorem validateChunk_unbounded {entry : EntryInfo} {sequence : Int64} {offset : UInt64} :
    (chunks.foldlM (validateChunk (components entry.relativePath) chunkSize)
        (sequence, offset)).map (fun expected => expected.2.toNat) =
      validateChunksFrom entry chunkSize.toNat sequence.toInt offset.toNat
        (chunks.map ChunkReferenceWords.info) := by
  induction chunks generalizing sequence offset with
  | nil => rfl
  | cons chunk chunks ih =>
    have hlast : sequence = Int64.maxValue ↔ sequence.toInt = maximumInt64 := eq_maxValue
    have hsum : Restore.checkedAdd offset.toNat chunk.info.rawLength
        (components entry.relativePath) = _ :=
      checkedAdd_eq.symm
    rw [List.foldlM_cons, List.map_cons, validateChunksFrom, validateChunk, hsum]
    dsimp only
    rw [if_congr refused_iff rfl rfl]
    split
    · rfl
    · rcases checkedAdd offset chunk.rawLength (components entry.relativePath) with e | next
      · rfl
      · dsimp only [Except.map, bind, Except.bind]
        by_cases hm : sequence = Int64.maxValue
        · rw [if_pos hm, if_pos (hlast.mp hm)]
        · rw [if_neg hm, if_neg (mt hlast.mpr hm), ← succ_toInt hm]
          exact ih

theorem validateChunks_unbounded {entry : EntryInfo} (hsize : entry.logicalSize = logicalSize.toNat) :
    validateChunks entry.relativePath logicalSize chunks chunkSize =
      Restore.validateChunks entry (chunks.map ChunkReferenceWords.info) chunkSize.toNat := by
  have h := @validateChunk_unbounded chunkSize chunks entry 0 0
  unfold validateChunks Restore.validateChunks
  change _ = validateChunksFrom entry chunkSize.toNat 0 0 _ at h
  rw [← h]
  rcases chunks.foldlM (validateChunk (components entry.relativePath) chunkSize) (0, 0)
    with e | expected
  · rfl
  · simp only [bind, Except.bind, Except.map, hsize, ne_eq, ← UInt64.toNat_inj,
      UInt64.toNat_zero, List.map_eq_nil_iff]

end Accepted
end Words

/-- `writeChunks` without the two checks of its loop. -/
def copyChunks (c : Context) (entry : EntryInfo) (temporary : Path) :
    List ChunkReferenceInfo → Nat → Bytes → RestoreM (Nat × Bytes)
  | [], written, hashed => pure (written, hashed)
  | chunk :: chunks, written, hashed => do
    checkCancelled c.host (components entry.relativePath)
    callback c.host
    let raw ← .ofExcept (readVerified c.x c.chunkSize c.objects chunk.hashHex chunk.objectPath
      chunk.rawSize chunk.storedSize)
    write c.host temporary raw
    callback c.host
    copyChunks c entry temporary chunks (written + chunk.rawLength) (hashed ++ raw)

/-- `produceFile` without the checks of its loop and of the size that it wrote. -/
def produceChecked (c : Context) (planned : PlannedEntry) (chunks : List ChunkReferenceInfo)
    (temporary : Path) : RestoreM Unit := do
  let entry := planned.entry
  let (_, hashed) ← copyChunks c entry temporary chunks 0 []
  if entry.fileHashHex ≠ some (toHex (c.x.blake3 hashed)) then
    .raise { code := .objectCorrupt,
             message := "restored file failed full-file BLAKE3 verification",
             path := components entry.relativePath }
  else
    flush c.host "failed to sync restored temporary file: " temporary
    let metadataWarning ← fileMetadata c entry temporary
    publishFile c planned temporary metadataWarning

section Loop

variable {c : Context} {entry : EntryInfo} {temporary : Path}

/-- The loop of an accepted layout never reaches one of its checks. -/
theorem writeChunks_eq {chunks : List ChunkReferenceInfo} {written : Nat} {hashed : Bytes}
    (hsize : ∀ chunk ∈ chunks, chunk.rawLength = chunk.rawSize)
    (hroom : written + rawTotal chunks ≤ maximumByteCount) :
    writeChunks c entry temporary chunks written hashed =
      copyChunks c entry temporary chunks written hashed := by
  induction chunks generalizing written hashed with
  | nil => rfl
  | cons chunk chunks ih =>
    have hlength := hsize chunk (by simp)
    have htotal : rawTotal (chunk :: chunks) = chunk.rawLength + rawTotal chunks := by
      simp [rawTotal]
    have hadd : checkedAdd written chunk.rawLength (components entry.relativePath) =
        .ok (written + chunk.rawLength) :=
      if_neg (by omega)
    unfold writeChunks copyChunks
    refine bind_congr fun _ _ _ _ => congrFun (bind_congr fun _ _ _ _ =>
      congrFun (bind_congr fun _ raw _ hread => ?_) _) _
    have hraw := (readVerified_spec (ofExcept_returns.mp hread).1).2
    rw [if_neg (by omega), hadd]
    refine congrFun (bind_congr fun _ _ _ _ => congrFun (bind_congr fun _ _ _ _ => ?_) _) _
    exact congrFun (ih (fun chunk h => hsize chunk (List.mem_cons_of_mem _ h)) (by omega)) _

/-- What the copy counts is the sum of the raw lengths. -/
theorem copyChunks_written {chunks : List ChunkReferenceInfo} {written total : Nat}
    {hashed hashed' : Bytes} {w w' : World}
    (h : copyChunks c entry temporary chunks written hashed w = (.ok (total, hashed'), w')) :
    total = written + rawTotal chunks := by
  induction chunks generalizing written hashed w with
  | nil =>
    cases h
    rfl
  | cons chunk chunks ih =>
    unfold copyChunks at h
    simp only [bind_returns] at h
    obtain ⟨_, _, _, _, _, _, _, _, _, _, _, _, _, _, _, h⟩ := h
    rw [ih h]
    simp [rawTotal, Nat.add_assoc]

theorem produceFile_eq {planned : PlannedEntry} {chunks : List ChunkReferenceInfo}
    {logicalSize chunkSize : Nat} (h : WellFormedLayout logicalSize chunkSize chunks)
    (hsize : planned.entry.logicalSize = logicalSize) (hbound : logicalSize ≤ maximumByteCount) :
    produceFile c planned chunks temporary = produceChecked c planned chunks temporary := by
  have hraw : ∀ chunk ∈ chunks, chunk.rawLength = chunk.rawSize := by
    intro chunk hc
    obtain ⟨i, hi⟩ := List.mem_iff_getElem?.mp hc
    exact (h.follows i chunk hi).rawSize
  have htotal := h.total
  unfold produceFile produceChecked
  dsimp only
  rw [writeChunks_eq hraw (by omega)]
  refine bind_congr fun _ copied _ hcopied => ?_
  have hwritten := copyChunks_written hcopied
  exact congrFun (if_neg (by omega)) _

end Loop

namespace Words

/-- `n` chunks of one byte, one behind the other. -/
def bytewise (n : Nat) : List ChunkReferenceWords :=
  (List.range n).map fun i =>
    { sequenceNumber := .ofNat i, hashHex := [], objectPath := [], rawOffset := .ofNat i,
      rawLength := 1, rawSize := 1, storedSize := 1 }

theorem bytewise_succ (n : Nat) :
    bytewise (n + 1) = bytewise n ++
      [{ sequenceNumber := .ofNat n, hashHex := [], objectPath := [], rawOffset := .ofNat n,
         rawLength := 1, rawSize := 1, storedSize := 1 }] := by
  simp [bytewise, List.range_succ]

theorem bytewise_wellFormed {n : Nat} (hn : n ≤ 2 ^ 63) :
    WellFormedLayout n 1 ((bytewise n).map ChunkReferenceWords.info) := by
  induction n with
  | zero => exact ⟨fun i c hc => by simp [bytewise] at hc, rfl⟩
  | succ n ih =>
    have hbefore := ih (by omega)
    have htotal := hbefore.total
    have hlength : ((bytewise n).map ChunkReferenceWords.info).length = n := by simp [bytewise]
    rw [bytewise_succ, List.map_append, List.map_singleton, wellFormedLayout_concat, htotal,
      hlength]
    refine ⟨hbefore, ⟨Int64.toInt_ofNat_of_lt (by omega), UInt64.toNat_ofNat_of_lt' ?_, ?_, rfl, ?_⟩,
      rfl⟩
    · unfold UInt64.size
      omega
    · exact ⟨le_rfl, le_rfl⟩
    · exact ⟨le_rfl, show 1 ≤ Restore.maximumStoredSize 1 by decide⟩

/-- Three bytes in chunks of at most two. -/
def threeBytes : List ChunkReferenceWords :=
  [{ sequenceNumber := 0, hashHex := [], objectPath := [], rawOffset := 0, rawLength := 2,
     rawSize := 2, storedSize := 9 },
   { sequenceNumber := 1, hashHex := [], objectPath := [], rawOffset := 2, rawLength := 1,
     rawSize := 1, storedSize := 8 }]

end Words
end LocalVault.Restore
