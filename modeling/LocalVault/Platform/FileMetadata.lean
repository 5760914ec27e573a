import LocalVault.Library.Checked
import LocalVault.Snapshot.Pipeline

namespace LocalVault
open Library Snapshot

def fileMetadataError (message : String) (path : Path) : LocalVaultError :=
  { code := .filesystemError, message, path }

namespace Posix

def nanosecondsPerSecond : Int64 := 1000000000

/-- `nanoseconds_since_epoch`; no result stands for an overflow. -/
def nanosecondsSinceEpoch (seconds nanoseconds : Int64) (path : Path) :
    Option (Except LocalVaultError Int64) := do
  let failed := fileMetadataError "file modification time is outside the supported range" path
  if nanoseconds < 0 ∨ nanosecondsPerSecond ≤ nanoseconds ∨
      Int64.maxValue / nanosecondsPerSecond < seconds ∨
      seconds < Int64.minValue / nanosecondsPerSecond then
    some (.error failed)
  else
    let wholeSeconds ← signed (seconds.toInt * nanosecondsPerSecond.toInt)
    let room ← signed (Int64.maxValue.toInt - nanoseconds.toInt)
    if room < wholeSeconds then some (.error failed)
    else
      let sum ← signed (wholeSeconds.toInt + nanoseconds.toInt)
      some (.ok sum)

structure Timespec where
  seconds : Int64
  nanoseconds : Int64
  deriving DecidableEq, Repr

/-- How wide `time_t` and `long` are on a platform. -/
inductive Width where
  | bits32
  | bits64
  deriving DecidableEq, Repr

/-- A `static_cast` to a signed type of that width, as it reads back. -/
def Width.cast : Width → Int64 → Int64
  | .bits32, v => v.toInt32.toInt64
  | .bits64, v => v

/-- `restored_modification_time`. -/
def restoredModificationTime (timeT long : Width) (modifiedTimeNs : Int64) (path : Path) :
    Option (Except LocalVaultError Timespec) := do
  let quotient := modifiedTimeNs / nanosecondsPerSecond
  let remainder := modifiedTimeNs % nanosecondsPerSecond
  let seconds ← if remainder < 0 then signed (quotient.toInt - 1) else some quotient
  let nanoseconds ←
    if remainder < 0 then signed (remainder.toInt + nanosecondsPerSecond.toInt) else some remainder
  let result : Timespec := ⟨timeT.cast seconds, long.cast nanoseconds⟩
  if result.seconds ≠ seconds then
    some (.error (fileMetadataError "restored modification time is outside the platform range" path))
  else some (.ok result)

/-- What `lstat` tells of a file, as far as a snapshot looks at it. -/
structure Stat where
  size : Int64
  modified : Timespec
  changed : Timespec
  device : UInt64
  inode : UInt64
  mode : UInt32
  deriving DecidableEq, Repr

/-- `read_platform_file_metadata_no_follow`, from what `lstat` answers. -/
def readPlatformFileMetadataNoFollow (lstat : Except String Stat) (path : Path) :
    Option (Except LocalVaultError PlatformFileMetadata) :=
  match lstat with
  | .error message =>
    some (.error (fileMetadataError
      ("failed to read file metadata without following symlinks: " ++ message) path))
  | .ok information =>
    if information.size < 0 then
      some (.error (fileMetadataError "file size is outside the supported range" path))
    else do
      match ← nanosecondsSinceEpoch information.modified.seconds
          information.modified.nanoseconds path with
      | .error e => some (.error e)
      | .ok modifiedTimeNs =>
        match ← nanosecondsSinceEpoch information.changed.seconds
            information.changed.nanoseconds path with
        | .error e => some (.error e)
        | .ok changedTimeNs =>
          some (.ok
            { logicalSize := information.size.toInt.toNat
              modifiedTimeNs := modifiedTimeNs.toInt
              changedTimeNs := changedTimeNs.toInt
              fileIdVolume := information.device.toNat
              fileIdValue := information.inode.toNat
              posixMode := information.mode.toNat })

end Posix

namespace Win32

structure Filetime where
  lowDateTime : UInt32
  highDateTime : UInt32
  deriving DecidableEq, Repr

def windowsToUnixEpochTicks : UInt64 := 116444736000000000

def Filetime.ticks (time : Filetime) : UInt64 :=
  (time.highDateTime.toUInt64 <<< 32) ||| time.lowDateTime.toUInt64

/-- `unix_time_nanoseconds`; no result stands for an operation or a cast that wraps. -/
def unixTimeNanoseconds (time : Filetime) (path : Path) :
    Option (Except LocalVaultError Int64) := do
  let failed := fileMetadataError "file modification time is outside the supported range" path
  let nanosecondsPerTick : UInt64 := 100
  let maximum : UInt64 := Int64.maxValue.toUInt64
  if windowsToUnixEpochTicks ≤ time.ticks then
    let unixTicks ← unsigned ((time.ticks.toNat : Int) - windowsToUnixEpochTicks.toNat)
    if maximum / nanosecondsPerTick < unixTicks then some (.error failed)
    else
      let value ← unsigned ((unixTicks.toNat : Int) * nanosecondsPerTick.toNat)
      let result ← signed value.toNat
      some (.ok result)
  else
    let ticksBeforeEpoch ← unsigned ((windowsToUnixEpochTicks.toNat : Int) - time.ticks.toNat)
    let minimumMagnitude ← unsigned ((maximum.toNat : Int) + 1)
    if minimumMagnitude / nanosecondsPerTick < ticksBeforeEpoch then some (.error failed)
    else
      let magnitude ← unsigned ((ticksBeforeEpoch.toNat : Int) * nanosecondsPerTick.toNat)
      if magnitude = minimumMagnitude then some (.ok Int64.minValue)
      else
        let value ← signed magnitude.toNat
        let result ← signed (-value.toInt)
        some (.ok result)

/-- `restored_filetime`. -/
def restoredFiletime (modifiedTimeNs : Int64) : Option Filetime := do
  let nanosecondsPerTick : Int64 := 100
  let unixTicks := modifiedTimeNs / nanosecondsPerTick
  let windowsTicks ←
    if 0 ≤ unixTicks then do
      let forward ← unsigned unixTicks.toInt
      unsigned ((windowsToUnixEpochTicks.toNat : Int) + forward.toNat)
    else do
      let next ← signed (unixTicks.toInt + 1)
      let negated ← signed (-next.toInt)
      let below ← unsigned negated.toInt
      let back ← unsigned ((below.toNat : Int) + 1)
      unsigned ((windowsToUnixEpochTicks.toNat : Int) - back.toNat)
  some ⟨(windowsTicks &&& 0xFFFFFFFF).toUInt32, (windowsTicks >>> 32).toUInt32⟩

end Win32
end LocalVault
