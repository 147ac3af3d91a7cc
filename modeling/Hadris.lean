import Hadris.DirtyRun
import Hadris.Exfat.FlagRun
import Hadris.Exfat.Mkfs
import Hadris.FatStore
import Hadris.Exfat.BootLayout
import Hadris.Storage.CacheRun
import Hadris.Storage.ReadAheadRun
import Hadris.Links
import Hadris.Directory.Unambiguous
import Hadris.Format.RoundTrip
import Hadris.Exfat.UpcaseAgree
import Hadris.Directory.StoredName
import Hadris.Directory.Fingerprint
import Hadris.Directory.Generated
import Hadris.Date
import Hadris.Alloc.Finish
import Hadris.Part.Built
import Hadris.Part.Scan
import Hadris.Part.Crash
import Hadris.Paths.Resolve
import Hadris.Cpio.Archived
import Hadris.Format.Planned
import Hadris.BlockIo
import Hadris.Alloc.Counted
import Hadris.Alloc.Freed
import Hadris.Calendar
import Hadris.Exfat.EntrySet
import Hadris.Exfat.SetAt
import Hadris.Cpio.Driven
import Hadris.Iso.Lossless
import Hadris.Part.Rebuild
import Hadris.Part.Placed
import Hadris.Udf.Resumed
import Hadris.Chains.Analyze
import Hadris.Chains.FatWalk
import Hadris.Chains.Measured
import Hadris.Instant
import Hadris.Paths.Lexical
import Hadris.Storage.ByteView
import Hadris.Tree.Fingerprint
