import LocalVault.Library.Uri
import LocalVault.Types

namespace LocalVault.ImmutableUri
open Library

inductive Platform where
  | posix
  | windows
  deriving DecidableEq, Repr

def colon : UInt8 := 0x3A

def isLetter (b : UInt8) : Bool := (0x61 ≤ b && b ≤ 0x7A) || (0x41 ≤ b && b ≤ 0x5A)

/-- `path::is_absolute`, for a path in generic form: a drive with its root directory, or a
network name, on Windows. -/
def isAbsolute : Platform → Bytes → Bool
  | .posix, path => path.head? == some slash
  | .windows, first :: second :: third :: _ =>
    (isLetter first && second == colon && third == slash) ||
      (first == slash && second == slash && third != slash)
  | .windows, _ => false

/-- `is_uri_path_character`. -/
def isUriPathCharacter (character : UInt8) : Bool :=
  (0x61 ≤ character && character ≤ 0x7A) || (0x41 ≤ character && character ≤ 0x5A) ||
    (0x30 ≤ character && character ≤ 0x39) || character == 0x2D || character == 0x2E ||
    character == 0x5F || character == 0x7E || character == 0x2F || character == 0x3A

/-- `percent_encode_uri_path`. -/
def percentEncodeUriPath (path : Bytes) : Bytes := Uri.encode isUriPathCharacter path

/-- The test in front of the three slashes that the Windows build adds. -/
def namesDrive (path : Bytes) : Bool :=
  isAbsolute .windows path && 3 ≤ path.length && path[1]? == some colon && path[2]? == some slash

/-- `immutable_database_uri`, of the generic UTF-8 spelling. -/
def immutableDatabaseUri (platform : Platform) (utf8Path : Bytes) : Bytes :=
  ascii "file:" ++
    (if platform = .windows ∧ namesDrive utf8Path then ascii "///" else []) ++
    percentEncodeUriPath utf8Path ++ ascii "?immutable=1"

/-- The file that SQLite opens for the path of a URI: the Windows build leaves out the slash
in front of a drive. -/
def openedPath : Platform → Bytes → Bytes
  | .windows, first :: drive :: second :: rest =>
    if first = slash ∧ isLetter drive ∧ second = colon then drive :: second :: rest
    else first :: drive :: second :: rest
  | _, path => path

/-- The file and the parameters that SQLite takes from a URI. -/
def opened (platform : Platform) (uri : Bytes) : Option (Bytes × List (Bytes × Bytes)) :=
  (Uri.parse uri).map fun parsed => (openedPath platform parsed.path, parsed.parameters)

end LocalVault.ImmutableUri
