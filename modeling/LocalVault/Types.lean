import LocalVault.Library.FileTree

namespace LocalVault

export Library.FileTree (Bytes Name Path slash dot dotDot pieces names)

/-- The bytes of an ASCII literal. -/
def ascii (s : String) : Bytes := s.toList.map (fun c => c.toNat.toUInt8)

inductive EntryType where
  | regularFile
  | directory
  | symbolicLink
  deriving DecidableEq, Repr

inductive SnapshotStatus where
  | pending
  | complete
  | failed
  | cancelled
  | deleting
  deriving DecidableEq, Repr

inductive OverwritePolicy where
  | never
  | prompt
  | always
  deriving DecidableEq, Repr

inductive OpenMode where
  | readOnly
  | readWrite
  deriving DecidableEq, Repr

inductive ErrorCode where
  | invalidArgument
  | repositoryNotFound
  | invalidRepository
  | unsupportedRepositoryVersion
  | repositoryBusy
  | filesystemError
  | databaseError
  | compressionError
  | hashingError
  | objectMissing
  | objectCorrupt
  | unsafeRestorePath
  | destinationExists
  | sourceChanged
  | cancelled
  | partialSuccess
  | internalError
  deriving DecidableEq, Repr

structure LocalVaultError where
  code : ErrorCode
  message : String
  path : Path := []
  deriving DecidableEq, Repr

/-- Whatever a C++ `catch (...)` can meet. -/
inductive Raised where
  | localVault (error : LocalVaultError)
  | standard (what : String)
  | unknown
  deriving DecidableEq, Repr

structure SkippedEntry where
  relativePath : Bytes
  reason : String
  deriving DecidableEq, Repr

structure ScannedEntry where
  sourcePath : Path
  relativePath : Bytes
  parentPath : Bytes
  name : Bytes
  type : EntryType
  logicalSize : Nat
  modifiedTimeNs : Int
  posixMode : Nat
  symlinkTarget : Option Bytes
  deriving DecidableEq, Repr

structure ScanWarning where
  relativePath : Bytes
  code : String
  message : String
  deriving DecidableEq, Repr

/-- `std::numeric_limits<ByteCount>::max()`. -/
def maximumByteCount : Nat := 2 ^ 64 - 1

/-- `std::numeric_limits<std::int64_t>::max()`. -/
def maximumInt64 : Nat := 2 ^ 63 - 1

def maximumUint32 : Nat := 2 ^ 32 - 1

/-- The largest chunk size `Repository::create` and `Repository::open` accept. -/
def permanentMaximumChunkSize : Nat := 4 * 1024 * 1024

end LocalVault
