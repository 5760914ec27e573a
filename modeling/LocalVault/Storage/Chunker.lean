import LocalVault.Library.Program
import LocalVault.Types

namespace LocalVault
open Library

/-- `kMaximumSupportedChunkSize`. -/
def maximumSupportedChunkSize : Nat := 4 * 1024 * 1024

structure Chunker where
  maximumChunkSize : Nat
  positive : 0 < maximumChunkSize
  supported : maximumChunkSize ≤ maximumSupportedChunkSize

/-- The constructor; the limits of `size_t` and `streamsize` lie above the third. -/
def Chunker.make (maximumChunkSize : Nat) : Except LocalVaultError Chunker :=
  if h : maximumChunkSize = 0 ∨ maximumSupportedChunkSize < maximumChunkSize then
    .error { code := .invalidArgument,
             message := "maximum chunk size is outside the supported range" }
  else .ok ⟨maximumChunkSize, by omega, by omega⟩

/-- A `std::istream`: the bytes its buffer still delivers, and its state bits. -/
structure InputStream where
  rest : Bytes
  eofBit : Bool
  failBit : Bool
  badBit : Bool
  deriving DecidableEq, Repr

def InputStream.opened (content : Bytes) : InputStream := ⟨content, false, false, false⟩

def InputStream.good (input : InputStream) : Bool := !(input.eofBit || input.failBit || input.badBit)

def InputStream.fail (input : InputStream) : Bool := input.failBit || input.badBit

/-- `read`, with the bytes that `gcount` counts. A buffer that throws has passed on so many
bytes before it does. -/
def InputStream.read (input : InputStream) (count : Nat) (thrown : Option Nat) :
    Bytes × InputStream :=
  if input.good = false then ([], { input with failBit := true })
  else match thrown with
    | some passed =>
      (input.rest.take (min passed count),
        { input with rest := input.rest.drop (min passed count), badBit := true })
    | none =>
      (input.rest.take count,
        { input with rest := input.rest.drop count
                     eofBit := input.rest.length < count
                     failBit := input.rest.length < count })

/-- What goes on around a loop over chunks: whether a stop is requested and whether the buffer
throws, by the number of the round, and what the callback throws, by the number of its call. -/
structure ReadHost where
  stopped : Nat → Bool
  thrown : Nat → Option Nat
  callback : Nat → Option Raised

/-- The locals of `for_each_chunk`; `delivered` is history, the calls of the callback. -/
structure Chunking where
  input : InputStream
  rawOffset : Nat
  rounds : Nat
  delivered : List (Nat × Bytes)
  deriving DecidableEq, Repr

def Chunking.start (content : Bytes) : Chunking := ⟨.opened content, 0, 0, []⟩

abbrev ChunkM := Program Chunking Raised

def chunkingFailed {α : Type} (code : ErrorCode) (message : String) (source : Path) : ChunkM α :=
  .raise (.localVault { code, message, path := source })

/-- `input.read` into the buffer. -/
def readBlock (x : ReadHost) (count : Nat) : ChunkM Bytes := fun s =>
  let (bytes, input) := s.input.read count (x.thrown s.rounds)
  (.ok bytes, { s with input, rounds := s.rounds + 1 })

/-- The call of the callback. -/
def deliver (x : ReadHost) (bytes : Bytes) : ChunkM Unit := fun s =>
  let s' := { s with delivered := s.delivered ++ [(s.rawOffset, bytes)] }
  match x.callback s.delivered.length with
  | some e => (.error e, s')
  | none => (.ok (), s')

/-- The body of the loop of `for_each_chunk`: whether it goes on. `gcount` is never negative. -/
def chunkRound (x : ReadHost) (chunker : Chunker) (source : Path) : ChunkM Bool := do
  if ← Program.read (fun s => x.stopped s.rounds) then
    chunkingFailed .cancelled "snapshot cancelled" source
  else
    let bytes ← readBlock x chunker.maximumChunkSize
    let input ← Program.read Chunking.input
    if input.badBit ∨ (input.fail ∧ input.eofBit = false) then
      chunkingFailed .filesystemError "failed to read source file" source
    else if bytes = [] then
      if input.eofBit then pure false
      else chunkingFailed .filesystemError "failed to read source file" source
    else
      let rawOffset ← Program.read Chunking.rawOffset
      if maximumByteCount - bytes.length < rawOffset then
        chunkingFailed .filesystemError "source file size is outside the supported range" source
      else
        deliver x bytes
        Program.update (fun s => { s with rawOffset := s.rawOffset + bytes.length })
        pure (!input.eofBit)

/-- `Chunker::for_each_chunk`, for so many rounds: whether it would go on behind them. -/
def forEachChunk (x : ReadHost) (chunker : Chunker) (source : Path) : Nat → ChunkM Bool
  | 0 => pure true
  | rounds + 1 => do
    if ← chunkRound x chunker source then forEachChunk x chunker source rounds
    else pure false

end LocalVault
