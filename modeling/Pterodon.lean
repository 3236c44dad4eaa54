import Pterodon.Updater.DryRun
import Pterodon.Framework.CopyFile
import Pterodon.Bootloader.Retry
import Pterodon.Bootloader.SlotSafety
import Pterodon.Bootloader.Crc
import Pterodon.Mtd.WriteStart
import Pterodon.Mmc.MmcUtils
import Pterodon.Updater.Join
import Pterodon.ApplyPatch.Bounds
import Pterodon.ApplyPatch.Flash
import Pterodon.Framework.Language
import Pterodon.ImgDiff.SplitRoundTrip
import Pterodon.Updater.Committed
import Pterodon.Otautil.Split
import Pterodon.Otautil.SortedRangeSet
import Pterodon.Updater.Streaming
import Pterodon.Sideload.Faithful
import Pterodon.Verifier.Pkcs7
import Pterodon.Verifier.KeyFile
import Pterodon.Updater.InBounds
import Pterodon.Updater.Independent
import Pterodon.Updater.Lifetime
import Pterodon.Updater.Recovery
import Pterodon.ApplyPatch.FreeCache
import Pterodon.ApplyPatch.Recompression
import Pterodon.ImgDiff.Alignment
import Pterodon.ImgDiff.ZipPartition
import Pterodon.ApplyPatch.VerifiedWrite
import Pterodon.Uncrypt.Window
import Pterodon.ImgDiff.SplitLimit
import Pterodon.ImgDiff.Scanning
import Pterodon.Uncrypt.Unmapping
import Pterodon.Framework.Settings
import Pterodon.Framework.PropFile
import Pterodon.FsManager.ProcFiles
import Pterodon.Framework.Cleaning
import Pterodon.Framework.Directories
import Pterodon.FsManager.Volumes
import Pterodon.Ui.WrappedText
