import Jiajia.Wire
import Jiajia.EndInterval
import Jiajia.Locks
import Jiajia.Barrier
import Jiajia.LockNotices
import Jiajia.MsgPass
import Jiajia.TreeCast
import Jiajia.Bcast
import Jiajia.Alloc
import Jiajia.CausalOrder
import Jiajia.SkippedNotice
import Jiajia.Prefetch
import Jiajia.FindSlot
import Jiajia.Merge
import Jiajia.Writers
import Jiajia.Grants
import Jiajia.DiffWire
import Jiajia.RdmaSelf
import Jiajia.RdmaListen
import Jiajia.WriteBits
import Jiajia.HostRuns
import Jiajia.StackNotices
import Jiajia.Detection
import Jiajia.MsgBuffer
import Jiajia.MigCheck
import Jiajia.HomeTable
import Jiajia.Vectors
import Jiajia.AllocArray
import Jiajia.AllocRandom
import Jiajia.CacheInverse
import Jiajia.FullCache
import Jiajia.EarlyReply
import Jiajia.PageWire
import Jiajia.PageFetch
import Jiajia.AllocInt
import Jiajia.AllocSafe
import Jiajia.NewHome
import Jiajia.DivTask
import Jiajia.BufferOrder
import Jiajia.PageReply
import Jiajia.CondVar
import Jiajia.Reduce
import Jiajia.MsgQueue
import Jiajia.OpenWindow
import Jiajia.SlotWait
import Jiajia.WrittenPages
import Jiajia.RdmaRing
import Jiajia.WtntChain
import Jiajia.ConfigLines
import Jiajia.NewLoad
import Jiajia.GrantScopes
import Jiajia.BarrierMemory
import Jiajia.Progress
import Jiajia.DiffSteps
