import LocalVault.Repository.Creation
import LocalVault.Snapshot.Engine
import LocalVault.Snapshot.Scanner

namespace LocalVault.Snapshot
open Library Library.FileTree Repository

/-- `normalized_source`, over the tree it inspects. -/
def normalizedSource (t : Tree) (currentDirectory : Except String Path) (source : Bytes) :
    Except LocalVaultError Path :=
  if source = [] then
    .error { code := .invalidArgument, message := "source root path must not be empty" }
  else match currentDirectory with
    | .error text =>
      .error { code := .filesystemError, path := components source
               message := "failed to make source path absolute: " ++ text }
    | .ok currentDirectory =>
      let normalized := (lexicallyNormal
        (if source.head? = some slash then components source
         else [slash] :: (currentDirectory ++ components source))).tail
      match symlinkStatus t normalized with
      | .error e =>
        .error { code := .filesystemError, path := normalized
                 message := "failed to inspect source root: " ++ errnoText e }
      | .ok (.directory _) => .ok normalized
      | .ok _ =>
        .error { code := .invalidArgument, path := normalized
                 message := "source root must be a directory and not a symbolic link" }

/-- The first lines of `create_snapshot`, up to the source it works with. -/
def sourceOf (r : Opened) (cancelled : Bool) (t : Tree) (currentDirectory : Except String Path)
    (sourceRoot : Bytes) : Except LocalVaultError Path :=
  if r.mode ≠ .readWrite then
    .error { code := .invalidArgument, message := "snapshots require a read-write repository"
             path := r.root }
  else if cancelled then .error (snapshotCancelled (components sourceRoot))
  else normalizedSource t currentDirectory sourceRoot

/-- The type that `symlink_status` gives to an object. -/
def fileType : Node → FileType
  | .directory _ => .directory
  | .file _ _ => .regular
  | .link _ => .symlink
  | .special => .other

/-- The answers about the source root come from a tree; the platform's own metadata fails with a
filesystem error only. -/
structure Source.Reads (source : Source) (t : Tree) (currentDirectory : Path) : Prop where
  directory : source.currentDirectory = .ok currentDirectory
  status : source.facts.status = match symlinkStatus t (source.normalized currentDirectory) with
    | .ok node => .ok (fileType node)
    | .error e => .error (errnoText e)
  platform : ∀ e, source.facts.platform = .error e → e.code = .filesystemError

end LocalVault.Snapshot
