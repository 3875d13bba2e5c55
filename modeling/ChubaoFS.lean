import ChubaoFS.DirEntries
import ChubaoFS.FailedOps
import ChubaoFS.SendRetry
import ChubaoFS.FreeListSafety
import ChubaoFS.FreeListExtents
import ChubaoFS.FreeListComplete
import ChubaoFS.FreeSync
import ChubaoFS.LocalReads
import ChubaoFS.WholeExtents
import ChubaoFS.StoreSchedule
import ChubaoFS.TinyWrites
import ChubaoFS.TinyDeleteSync
import ChubaoFS.ExtentDelRemoval
import ChubaoFS.CrashRecovery
import ChubaoFS.LogTruncation
import ChubaoFS.ExtentIds
import ChubaoFS.DeletedExtents
import ChubaoFS.RaftStart
import ChubaoFS.PacketFraming
import ChubaoFS.ExtentRepair
import ChubaoFS.RecoveryKeys
import ChubaoFS.CacheCoherence
import ChubaoFS.FileWrite
import ChubaoFS.MasterLoad
import ChubaoFS.MasterSync
import ChubaoFS.VolumeIds
import ChubaoFS.PartitionChecks
import ChubaoFS.RackAlloc
import ChubaoFS.DirCache
import ChubaoFS.DiskRecovery
import ChubaoFS.ExtentCrcs
