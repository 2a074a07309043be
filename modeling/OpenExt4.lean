import OpenExt4.Journal.RoundTrip
import OpenExt4.Journal.Lap
import OpenExt4.Balloc.Accounting
import OpenExt4.Balloc.Gate
import OpenExt4.Balloc.LazyBitmap
import OpenExt4.Ialloc.Exact
import OpenExt4.Inode.Fields
import OpenExt4.Bridge.Runs
import OpenExt4.Bridge.CleanupRuns
import OpenExt4.Bridge.OrphanRuns
import OpenExt4.Bridge.AncestryWalk
import OpenExt4.Bridge.XattrNames
import OpenExt4.Bridge.CheckReport
import OpenExt4.Lib.Chain
import OpenExt4.Extension.OpenFiles
import OpenExt4.Extension.BlockDevice
import OpenExt4.Cache.Direct
import OpenExt4.Files.SizeLaw
import OpenExt4.Files.Returned
import OpenExt4.Crypto.RightKey
import OpenExt4.Crypto.Tweak
import OpenExt4.Crypto.AfSplit
import OpenExt4.Crypto.Base64
import OpenExt4.Crypto.JsonRight
import OpenExt4.Extents.Walks
import OpenExt4.Extents.TailRemoved
import OpenExt4.Crypto.PlainRuns
import OpenExt4.Xattr.Safe
import OpenExt4.Blockmap.Links
import OpenExt4.Blockmap.FileRuns
import OpenExt4.Journal.Redo
import OpenExt4.Journal.Durable
