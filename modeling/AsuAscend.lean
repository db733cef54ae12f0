import AsuAscend.Lib.BarrierThreads
import AsuAscend.Lib.RelyGuarantee
import AsuAscend.Lib.RaceFree
import AsuAscend.Lib.AccessLogs
import AsuAscend.Lib.Compaction
import AsuAscend.Lib.CircularOrder
import AsuAscend.Lib.WordBitmap
import AsuAscend.Lib.Interleavings
import AsuAscend.Lib.FlatMemory
import AsuAscend.Lib.LittleEndian
import AsuAscend.Lib.SequentialObject
import AsuAscend.Lib.NumberedLists
import AsuAscend.Lib.RankedRuns
import AsuAscend.Lib.Footprints
import AsuAscend.Lib.StreamPrograms
import AsuAscend.Lib.StreamRuns
import AsuAscend.Lib.OrderedDict
import AsuAscend.Lib.Recency
import AsuAscend.Lookup.WorkingSet
import AsuAscend.Lookup.Selector
import AsuAscend.Lookup.TwoCalls
import AsuAscend.Lookup.EmptyFirst
import AsuAscend.Lookup.Atomic
import AsuAscend.Simt.Refinement
import AsuAscend.Simt.Schedules
import AsuAscend.Simt.Safety
import AsuAscend.HbmIndex.LookupLaunch
import AsuAscend.HbmIndex.Rounds
import AsuAscend.HbmIndex.MaintainLaunch
import AsuAscend.HbmIndex.RowBases
import AsuAscend.LookupUpdate.LookupVec
import AsuAscend.LookupUpdate.RandomUpdate
import AsuAscend.Decode.Gather
import AsuAscend.Decode.InStep
import AsuAscend.Decode.SlotPool
import AsuAscend.Decode.LostSlots
import AsuAscend.Decode.FailedReset
import AsuAscend.Decode.KernelRefines
import AsuAscend.MicroKV.Linearize
import AsuAscend.MicroKV.Session
import AsuAscend.MicroKV.Streams
import AsuAscend.Simu.Simulation
import AsuAscend.Simu.IdealLru
import AsuAscend.Decode.KernelPool
import AsuAscend.Simt.TwoPass
import AsuAscend.Simt.MissCompaction
import AsuAscend.Simt.Launch
import AsuAscend.Simt.RandomCase
import AsuAscend.Lookup.TokenOrder
import AsuAscend.Simu.MoreSlots
import AsuAscend.HbmIndex.Serving
import AsuAscend.Decode.Serve
import AsuAscend.Decode.ServeKernel
import AsuAscend.MicroKV.TokenKeys
import AsuAscend.MicroKV.Service
import AsuAscend.HbmIndex.Validation
import AsuAscend.LookupUpdate.Stream
