import LocalVault.Text

namespace LocalVault

/-- The third-party functions the program calls: BLAKE3 over all bytes fed to a
hasher, and zstd at the repository's level. -/
structure Externals where
  blake3 : Bytes → Vector UInt8 32
  zstdCompress : Bytes → Except String Bytes
  zstdFindFrameCompressedSize : Bytes → Except String Nat
  zstdDecompress : Bytes → Nat → Except String Bytes

/-- `ZSTD_COMPRESSBOUND`. -/
def compressBound (size : Nat) : Nat :=
  size + size / 256 + if size < 128 * 1024 then (128 * 1024 - size) / 2048 else 0

/-- `ZSTD_MAX_INPUT_SIZE` of a 64-bit build. -/
def zstdMaximumInput : Nat := 0xFF00FF00FF00FF00

def zstdError (operation name : String) : LocalVaultError :=
  { code := .compressionError, message := operation ++ " failed: " ++ name }

def compressionBound (rawSize : Nat) : Except LocalVaultError Nat :=
  if zstdMaximumInput ≤ rawSize then
    .error (zstdError "zstd compression bound calculation" "Src size is incorrect")
  else .ok (compressBound rawSize)

/-- `ZstdCodec::compress`. -/
def compress (x : Externals) (raw : Bytes) : Except LocalVaultError Bytes :=
  match compressionBound raw.length with
  | .error e => .error e
  | .ok _ =>
    match x.zstdCompress raw with
    | .error name => .error (zstdError "zstd compression" name)
    | .ok compressed => .ok compressed

/-- `ZstdCodec::decompress`. -/
def decompress (x : Externals) (compressed : Bytes) (expectedRawSize maximumRawSize : Nat) :
    Except LocalVaultError Bytes :=
  if maximumRawSize < expectedRawSize then
    .error { code := .compressionError,
             message := "expected raw size exceeds repository chunk-size limit" }
  else match compressionBound maximumRawSize with
    | .error e => .error e
    | .ok maximumCompressedSize =>
      if maximumCompressedSize < compressed.length then
        .error { code := .compressionError,
                 message := "compressed input exceeds configured safety limit" }
      else match x.zstdFindFrameCompressedSize compressed with
        | .error name => .error (zstdError "zstd frame validation" name)
        | .ok frameSize =>
          if frameSize ≠ compressed.length then
            .error { code := .compressionError,
                     message := "compressed input must contain exactly one zstd frame" }
          else match x.zstdDecompress compressed expectedRawSize with
            | .error name => .error (zstdError "zstd decompression" name)
            | .ok raw =>
              if raw.length ≠ expectedRawSize then
                .error { code := .compressionError,
                         message := "decompressed size does not match expected raw size" }
              else .ok raw

/-- What zstd promises of its own frames: not empty, within the bound, one
frame, and decoded to the input. -/
structure RoundTrips (x : Externals) : Prop where
  nonempty : ∀ raw c, x.zstdCompress raw = .ok c → 0 < c.length
  bounded : ∀ raw c, x.zstdCompress raw = .ok c → c.length ≤ compressBound raw.length
  frame : ∀ raw c, x.zstdCompress raw = .ok c → x.zstdFindFrameCompressedSize c = .ok c.length
  inverse : ∀ raw c, x.zstdCompress raw = .ok c → x.zstdDecompress c raw.length = .ok raw

/-- BLAKE3 tells the byte strings of a set apart. -/
def CollisionFree (x : Externals) (involved : Bytes → Prop) : Prop :=
  ∀ a b, involved a → involved b → x.blake3 a = x.blake3 b → a = b

theorem compressBound_mono {m n : Nat} (h : m ≤ n) : compressBound m ≤ compressBound n := by
  unfold compressBound
  split <;> split <;> omega

theorem compressionBound_chunk {n : Nat} (h : n ≤ permanentMaximumChunkSize) :
    compressionBound n = .ok (compressBound n) := by
  have : ¬ zstdMaximumInput ≤ n := by
    unfold zstdMaximumInput
    unfold permanentMaximumChunkSize at h
    omega
  simp [compressionBound, this]

theorem decompress_length {x : Externals} {c raw : Bytes} {size maximum : Nat}
    (h : decompress x c size maximum = .ok raw) : raw.length = size := by
  unfold decompress at h
  split at h
  · cases h
  · split at h
    · cases h
    · split at h
      · cases h
      · split at h
        · cases h
        · split at h
          · cases h
          · split at h
            · cases h
            · split at h
              · cases h
              · rename_i hl
                cases h
                simpa using hl

/-- A chunk that was compressed decompresses again, under every repository
limit that admits it. -/
theorem decompress_compress {x : Externals} (hx : RoundTrips x) {raw c : Bytes} {maximum : Nat}
    (hc : compress x raw = .ok c) (hr : raw.length ≤ maximum)
    (hm : maximum ≤ permanentMaximumChunkSize) :
    decompress x c raw.length maximum = .ok raw := by
  unfold compress at hc
  rw [compressionBound_chunk (Nat.le_trans hr hm)] at hc
  cases hz : x.zstdCompress raw with
  | error name => simp [hz] at hc
  | ok c' =>
    simp only [hz, Except.ok.injEq] at hc
    subst hc
    have hb : ¬ compressBound maximum < c'.length :=
      Nat.not_lt.mpr (Nat.le_trans (hx.bounded raw c' hz) (compressBound_mono hr))
    simp [decompress, Nat.not_lt.mpr hr, compressionBound_chunk hm, hb, hx.frame raw c' hz,
      hx.inverse raw c' hz]

theorem compress_ok {x : Externals} {raw c : Bytes} (h : compress x raw = .ok c) :
    x.zstdCompress raw = .ok c := by
  unfold compress at h
  split at h
  · cases h
  · split at h
    · cases h
    · simp_all

end LocalVault
