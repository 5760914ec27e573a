import LocalVault.Proofs.Reading
import LocalVault.Proofs.Results

namespace LocalVault
open Library

/-- No check of a repository with chunk size `c` refuses an object of `r` bytes because it is
stored in `s` bytes. -/
structure SizeAccepted (c r s : Nat) : Prop where
  reused : ∀ {objects : Objects} {known : StoredObject} {path content : Bytes},
    pathKey known.relativePath = pathKey path → known.rawSize = r → known.storedSize = s →
    objects path = some (.file content) → content.length = s →
    requireReusable c objects known known.hashHex path r = .ok { known with newlyStored := false }
  ensured : ∀ {config : Snapshot.Config} {objects : Objects} {object : StoredObject}
    {content : Bytes} (now : Int), config.chunkSize = c →
    isLowercaseBlake3Hex object.hashHex = true →
    pathKey object.relativePath = pathKey (derivedPath object.hashHex) →
    object.rawSize = r → object.storedSize = s →
    objects (derivedPath object.hashHex) = some (.file content) → content.length = s →
    Snapshot.ensureMetadata config objects object now =
      ensureChunk ⟨object.hashHex, r, s, object.relativePath, now⟩
  registered : ∀ {db : Database} {hash : Bytes} (now : Int), isLowercaseBlake3Hex hash = true →
    (∀ k ∈ db.chunks, k.hash ≠ hash ∧ k.objectPath ≠ derivedPath hash) →
    ensureChunk ⟨hash, r, s, derivedPath hash, now⟩ db =
      (.ok (), { db with chunks := db.chunks ++ [⟨hash, r, s, derivedPath hash, now⟩] })
  validated : ∀ (entry : EntryInfo) (before after : List ChunkReferenceInfo)
    (chunk : ChunkReferenceInfo), chunk.storedSize = s →
    Restore.validateChunks entry (before ++ chunk :: after) c =
      Restore.validateChunks entry (before ++ { chunk with storedSize := 1 } :: after) c

section Sizes

variable {x : Externals} {c m r s : Nat} {objects : Objects} {raw compressed content : Bytes}
  {hash path : Bytes}

/-- What zstd may need for a chunk is within the allowance of the store. -/
theorem compressBound_allowed (hc : c ≤ permanentMaximumChunkSize) :
    compressBound c ≤ c + compressedSizeAllowance := by
  unfold permanentMaximumChunkSize at hc
  unfold compressBound compressedSizeAllowance
  split <;> omega

theorem allowance_addressable (hc : c ≤ permanentMaximumChunkSize) :
    c + compressedSizeAllowance ≤ maximumByteCount := by
  have h : permanentMaximumChunkSize + compressedSizeAllowance ≤ maximumByteCount := by decide
  omega

theorem stored_le_allowance (hc : c ≤ permanentMaximumChunkSize) (hr : r ≤ c)
    (hs : s ≤ compressBound r) : s ≤ c + compressedSizeAllowance :=
  calc s ≤ compressBound r := hs
    _ ≤ compressBound c := compressBound_mono hr
    _ ≤ c + compressedSizeAllowance := compressBound_allowed hc

theorem compressChunk_fits (hc : c ≤ permanentMaximumChunkSize) (hr : raw.length ≤ c)
    (hz : x.zstdCompress raw = .ok compressed) (hpos : 1 ≤ compressed.length)
    (hbound : compressed.length ≤ compressBound raw.length) :
    compressChunk x c raw = .ok compressed := by
  have hallowed := stored_le_allowance hc hr hbound
  have hcompress : compress x raw = .ok compressed := by
    unfold compress
    rw [compressionBound_chunk (Nat.le_trans hr hc), hz]
  unfold compressChunk
  rw [hcompress]
  exact if_neg (by omega)

/-- A larger limit changes nothing for what fits the smaller one. -/
theorem decompress_limit (hc : c ≤ permanentMaximumChunkSize) (hr : r ≤ c)
    (hbound : compressed.length ≤ compressBound r) (hm : c ≤ m) (hzstd : m < zstdMaximumInput) :
    decompress x compressed r c = decompress x compressed r m := by
  have hbelow : compressed.length ≤ compressBound c := Nat.le_trans hbound (compressBound_mono hr)
  have habove : compressed.length ≤ compressBound m := Nat.le_trans hbelow (compressBound_mono hm)
  have hlimit : compressionBound m = .ok (compressBound m) := by
    unfold compressionBound
    rw [if_neg (by omega)]
  unfold decompress
  rw [if_neg (by omega), if_neg (by omega), compressionBound_chunk hc, hlimit]
  dsimp only
  rw [if_neg (by omega), if_neg (by omega)]

theorem decompress_fits (hc : c ≤ permanentMaximumChunkSize) (hr : raw.length ≤ c)
    (hbound : compressed.length ≤ compressBound raw.length)
    (hframe : x.zstdFindFrameCompressedSize compressed = .ok compressed.length)
    (hinverse : x.zstdDecompress compressed raw.length = .ok raw) :
    decompress x compressed raw.length c = .ok raw := by
  have hbelow : compressed.length ≤ compressBound c := Nat.le_trans hbound (compressBound_mono hr)
  unfold decompress
  rw [if_neg (by omega), compressionBound_chunk hc]
  dsimp only
  rw [if_neg (by omega), hframe]
  dsimp only
  rw [if_neg (by omega), hinverse]
  exact if_neg (by omega)

theorem readExact_length (h : readExact objects path s = .ok content) : content.length = s := by
  unfold readExact at h
  split at h
  · split at h
    · cases h
    · cases h
      rw [List.length_take]
      omega
  · cases h

theorem readVerified_limit (hc : c ≤ permanentMaximumChunkSize) (hr : r ≤ c)
    (hbound : s ≤ compressBound r) (hm : c ≤ m) (hzstd : m < zstdMaximumInput) :
    readVerified x c objects hash path r s = readVerified x m objects hash path r s := by
  have hallowed := stored_le_allowance hc hr hbound
  have hraw : (r = 0 ∨ c < r ∨ maximumByteCount < r) ↔ (r = 0 ∨ m < r ∨ maximumByteCount < r) := by
    omega
  have hstored : (s = 0 ∨ c + compressedSizeAllowance < s ∨ maximumByteCount < s) ↔
      (s = 0 ∨ m + compressedSizeAllowance < s ∨ maximumByteCount < s) := by
    omega
  unfold readVerified
  simp only [hraw, hstored]
  congr 1
  funext _
  split
  · rfl
  · split
    · rfl
    · split
      · rfl
      · congr 1
        funext size
        cases size with
        | none => rfl
        | some actual =>
          dsimp only
          split
          · rfl
          · cases hread : readExact objects (derivedPath hash) s with
            | error e => rfl
            | ok bytes =>
              have hlength := readExact_length hread
              have hsame : decompress x bytes r c = decompress x bytes r m :=
                decompress_limit hc hr (by omega) hm hzstd
              simp only [bind, Except.bind, hsame]

theorem readVerified_sizes (h : readVerified x c objects hash path r s = .ok raw) :
    1 ≤ r ∧ r ≤ c ∧ 1 ≤ s ∧ s ≤ c + compressedSizeAllowance := by
  unfold readVerified at h
  obtain ⟨_, -, h⟩ := bind_ok.mp h
  dsimp only at h
  split at h
  · cases h
  · split at h
    · cases h
    · split at h
      · cases h
      · omega

theorem derivedPath_length (h : isLowercaseBlake3Hex hash = true) :
    hash.length = 64 ∧ (derivedPath hash).length = 79 := by
  unfold isLowercaseBlake3Hex at h
  simp only [Bool.and_eq_true, beq_iff_eq] at h
  have hdirectory : (ascii "objects/").length = 8 := by decide
  have hsuffix : (ascii ".zst").length = 4 := by decide
  refine ⟨h.1, ?_⟩
  unfold derivedPath
  simp only [List.length_append, List.length_cons, List.length_take, hdirectory, hsuffix, h.1]
  omega

/-- A chunk that no row knows is registered, whatever its sizes are. -/
theorem ensureChunk_registers {db : Database} (now : Int) (hr : 1 ≤ r) (hraw : r ≤ maximumInt64)
    (hs : 1 ≤ s) (hstored : s ≤ maximumInt64) (hhash : isLowercaseBlake3Hex hash = true)
    (hfresh : ∀ k ∈ db.chunks, k.hash ≠ hash ∧ k.objectPath ≠ derivedPath hash) :
    ensureChunk ⟨hash, r, s, derivedPath hash, now⟩ db =
      (.ok (), { db with chunks := db.chunks ++ [⟨hash, r, s, derivedPath hash, now⟩] }) := by
  obtain ⟨hshort, hlong⟩ := derivedPath_length hhash
  have hbind : bindTexts [hash, derivedPath hash] db = (.ok (), db) := by
    simp [bindTexts, hshort, hlong, pure, Program.ret]
  have hinsert : insertChunk ⟨hash, r, s, derivedPath hash, now⟩ r s db =
      (.ok (), { db with chunks := db.chunks ++ [⟨hash, r, s, derivedPath hash, now⟩] }) := by
    unfold insertChunk
    rw [if_neg, if_neg (by omega), if_neg (by omega)]
    simp only [List.any_eq_true, Bool.or_eq_true, beq_iff_eq, not_exists, not_and, not_or]
    exact hfresh
  have hold : db.chunks.filter (fun k => k.hash == hash) = [] :=
    List.filter_eq_nil_iff.mpr (fun k hk => by simpa using (hfresh k hk).1)
  have hrow : (db.chunks ++ [(⟨hash, r, s, derivedPath hash, now⟩ : ChunkRow)]).filter
      (fun k => k.hash == hash) = [⟨hash, r, s, derivedPath hash, now⟩] := by
    rw [List.filter_append, hold]
    simp
  have hsize : ∀ {n : Nat} (field : String), n ≤ maximumInt64 → checkedInt64 n field = .ok (n : Int) :=
    fun field h => if_neg (by omega)
  have hback : ∀ (n : Nat) (field : String), checkedByteCount (n : Int) field = .ok n := by
    intro n field
    unfold checkedByteCount
    rw [if_neg (by omega), Int.toNat_natCast]
  unfold ensureChunk
  refine Program.bind_returns.mpr ⟨(), db, hbind, ?_⟩
  refine Program.bind_returns.mpr ⟨r, db, Program.ofExcept_returns.mpr ⟨hsize _ hraw, rfl⟩, ?_⟩
  refine Program.bind_returns.mpr ⟨s, db, Program.ofExcept_returns.mpr ⟨hsize _ hstored, rfl⟩, ?_⟩
  refine Program.bind_returns.mpr ⟨(), _, hinsert, ?_⟩
  refine Program.bind_returns.mpr ⟨_, _, rfl, ?_⟩
  dsimp only
  rw [hrow]
  refine Program.bind_returns.mpr ⟨r, _, Program.ofExcept_returns.mpr ⟨hback _ _, rfl⟩, ?_⟩
  refine Program.bind_returns.mpr ⟨s, _, Program.ofExcept_returns.mpr ⟨hback _ _, rfl⟩, ?_⟩
  simp [pure, Program.ret]

theorem requireReusable_fits {known : StoredObject} (hc : c ≤ permanentMaximumChunkSize)
    (hpos : 1 ≤ s) (hs : s ≤ c + compressedSizeAllowance)
    (hpath : pathKey known.relativePath = pathKey path) (hraw : known.rawSize = r)
    (hstored : known.storedSize = s) (hfile : objects path = some (.file content))
    (hlength : content.length = s) :
    requireReusable c objects known known.hashHex path r = .ok { known with newlyStored := false } := by
  have hmax := allowance_addressable hc
  unfold requireReusable regularFileSize
  rw [if_neg (by simp [hpath]), if_neg (by simp [hraw]), if_neg (by omega), hfile]
  dsimp only
  rw [if_neg (by omega)]
  exact if_neg (by omega)

theorem validateChunksFrom_size (hc : c ≤ permanentMaximumChunkSize) (hpos : 1 ≤ s)
    (hs : s ≤ c + compressedSizeAllowance) (entry : EntryInfo) (before after : List ChunkReferenceInfo)
    (chunk : ChunkReferenceInfo) (hstored : chunk.storedSize = s) (k : Int) (o : Nat) :
    Restore.validateChunksFrom entry c k o (before ++ chunk :: after) =
      Restore.validateChunksFrom entry c k o (before ++ { chunk with storedSize := 1 } :: after) := by
  obtain ⟨hlimit, hmax⟩ := Restore.storedSize_fits hc
  induction before generalizing k o with
  | nil =>
    have hnone : ∀ n, 1 ≤ n → n ≤ c + compressedSizeAllowance →
        ((n = 0 ∨ Restore.maximumStoredSize c < n ∨ maximumByteCount < n) ↔ False) := by
      intro n hlow hhigh
      rw [iff_false]
      omega
    simp only [List.nil_append, Restore.validateChunksFrom, hstored, hnone s hpos hs,
      hnone 1 (Nat.le_refl 1) (by omega), or_false]
  | cons first rest ih =>
    simp only [List.cons_append, Restore.validateChunksFrom, ih]

theorem sizeAccepted (hc : c ≤ permanentMaximumChunkSize) (hr : 1 ≤ r) (hraw : r ≤ c) (hpos : 1 ≤ s)
    (hs : s ≤ c + compressedSizeAllowance) : SizeAccepted c r s where
  reused hpath hsize hstored hfile hlength :=
    requireReusable_fits hc hpos hs hpath hsize hstored hfile hlength
  ensured := by
    intro config objects object content now hconfig hhash hpath hsize hstored hfile hlength
    have hvalid : requireValidHash object.hashHex .objectCorrupt = .ok () := if_pos hhash
    unfold Snapshot.ensureMetadata
    rw [hvalid, hconfig, hsize, requireReusable_fits hc hpos hs hpath hsize hstored hfile hlength]
    change ensureChunk ⟨object.hashHex, object.rawSize, object.storedSize, _, now⟩ = _
    rw [hsize, hstored]
  registered now hhash hfresh := by
    have hint : permanentMaximumChunkSize + compressedSizeAllowance ≤ maximumInt64 := by decide
    exact ensureChunk_registers now hr (by omega) hpos (by omega) hhash hfresh
  validated entry before after chunk hstored := by
    unfold Restore.validateChunks
    rw [validateChunksFrom_size hc hpos hs entry before after chunk hstored]
    cases Restore.validateChunksFrom entry c 0 0 (before ++ { chunk with storedSize := 1 } :: after) with
    | error e => rfl
    | ok total => simp

/-- A frame that zstd itself takes back passes a verified read. -/
theorem readVerified_fits (hc : c ≤ permanentMaximumChunkSize) (hr : 1 ≤ raw.length)
    (hraw : raw.length ≤ c) (hpos : 1 ≤ compressed.length)
    (hbound : compressed.length ≤ compressBound raw.length)
    (hdecompress : decompress x compressed raw.length c = .ok raw)
    (hfile : objects (derivedPath (hashRaw x raw)) = some (.file compressed)) :
    readVerified x c objects (hashRaw x raw) (derivedPath (hashRaw x raw)) raw.length
      compressed.length = .ok raw := by
  have hallowed := stored_le_allowance hc hraw hbound
  have hmax := allowance_addressable hc
  have hvalid : requireValidHash (hashRaw x raw) .objectCorrupt = .ok () :=
    if_pos (toHex_lowercase _)
  unfold readVerified
  rw [hvalid]
  change (if _ then _ else _) = _
  rw [if_neg (fun h => h rfl), if_neg (by omega), if_neg (by omega)]
  simp only [regularFileSize, hfile]
  rw [if_neg (by omega)]
  simp only [bind, Except.bind, ne_eq, not_true_eq_false, ↓reduceIte, readExact, hfile,
    Nat.lt_irrefl, List.take_length, hdecompress]

end Sizes

/-- Nothing that can be stored is later refused for its size, and neither is what a read adopts. -/
theorem stored_size_accepted (x : Externals) (c : Nat) (hc : c ≤ permanentMaximumChunkSize) :
    (∀ raw compressed : Bytes, 1 ≤ raw.length → raw.length ≤ c →
      x.zstdCompress raw = .ok compressed → 1 ≤ compressed.length →
      compressed.length ≤ compressBound raw.length →
      compressChunk x c raw = .ok compressed ∧
      SizeAccepted c raw.length compressed.length ∧
      (∀ m, c ≤ m → m < zstdMaximumInput →
        decompress x compressed raw.length c = decompress x compressed raw.length m ∧
        ∀ (objects : Objects) (hash path : Bytes),
          readVerified x c objects hash path raw.length compressed.length =
            readVerified x m objects hash path raw.length compressed.length) ∧
      (x.zstdFindFrameCompressedSize compressed = .ok compressed.length →
        x.zstdDecompress compressed raw.length = .ok raw →
        decompress x compressed raw.length c = .ok raw ∧
        ∀ objects : Objects, objects (derivedPath (hashRaw x raw)) = some (.file compressed) →
          readVerified x c objects (hashRaw x raw) (derivedPath (hashRaw x raw)) raw.length
            compressed.length = .ok raw)) ∧
    ∀ (objects : Objects) (hash path raw : Bytes) (r s : Nat),
      readVerified x c objects hash path r s = .ok raw → SizeAccepted c r s := by
  constructor
  · intro raw compressed hr hraw hz hpos hbound
    have hallowed := stored_le_allowance hc hraw hbound
    refine ⟨compressChunk_fits hc hraw hz hpos hbound, sizeAccepted hc hr hraw hpos hallowed,
      fun m hm hzstd => ⟨decompress_limit hc hraw hbound hm hzstd,
        fun objects hash path => readVerified_limit hc hraw hbound hm hzstd⟩, ?_⟩
    intro hframe hinverse
    have hdecompress := decompress_fits hc hraw hbound hframe hinverse
    exact ⟨hdecompress, fun objects hfile =>
      readVerified_fits hc hr hraw hpos hbound hdecompress hfile⟩
  · intro objects hash path raw r s h
    obtain ⟨hr, hraw, hpos, hs⟩ := readVerified_sizes h
    exact sizeAccepted hc hr hraw hpos hs

/-- Three bytes in a repository whose chunks have four: stored in twelve, and read back. -/
theorem stored_size_accepted_frame :
    compressChunk Snapshot.sampleExternals 4 (ascii "abc") = .ok Snapshot.sampleFrame ∧
    SizeAccepted 4 3 12 ∧
    ∀ objects : Objects,
      objects (derivedPath (toHex Snapshot.sampleDigest)) = some (.file Snapshot.sampleFrame) →
      readVerified Snapshot.sampleExternals 4 objects (toHex Snapshot.sampleDigest)
        (derivedPath (toHex Snapshot.sampleDigest)) 3 12 = .ok (ascii "abc") := by
  obtain ⟨hstored, -⟩ := stored_size_accepted Snapshot.sampleExternals 4 (by decide)
  obtain ⟨hcompress, haccepted, -, hread⟩ := hstored (ascii "abc") Snapshot.sampleFrame
    (by decide) (by decide) rfl (by decide) (by decide)
  obtain ⟨-, hfile⟩ := hread rfl rfl
  exact ⟨hcompress, haccepted, hfile⟩

end LocalVault
