import LocalVault.Library.Program
import LocalVault.Library.FileEdit
import LocalVault.Proofs.Entries
import LocalVault.Proofs.Never
import LocalVault.Proofs.Validation
import LocalVault.Proofs.Recovery
import LocalVault.Proofs.Accounting
import LocalVault.Proofs.AllOrNothing
import LocalVault.Proofs.Lossless
import LocalVault.Proofs.Ignoring
import LocalVault.Proofs.Closure
import LocalVault.Proofs.Native
import LocalVault.Proofs.Chunking
import LocalVault.Proofs.Roots
import LocalVault.Proofs.RootLinks
import LocalVault.Proofs.Resuming
import LocalVault.Proofs.Totals
import LocalVault.Proofs.Durable
import LocalVault.Proofs.Utf8
import LocalVault.Proofs.Words
import LocalVault.Proofs.Uri
import LocalVault.Proofs.Progress
import LocalVault.Proofs.Wakeups
import LocalVault.Proofs.Callbacks
import LocalVault.Proofs.FileMetadata
import LocalVault.Proofs.Sizes
import LocalVault.Proofs.Exactness
import LocalVault.Proofs.Filing
import LocalVault.Proofs.Outcomes
import LocalVault.Proofs.Treelike
import LocalVault.Proofs.Recovering
import LocalVault.Proofs.Restorability
import LocalVault.Proofs.Effort
import LocalVault.Proofs.Spooling
