import InMemoryDb.Lib.LittleEndian
import InMemoryDb.Lib.SparseFile
import InMemoryDb.Lib.SortedMap
import InMemoryDb.Lib.Machine
import InMemoryDb.Lib.Sequence
import InMemoryDb.Lib.Frames
import InMemoryDb.Lib.LastWrite
import InMemoryDb.Lib.RollingHash
import InMemoryDb.Lib.RefCount
import InMemoryDb.Lib.Barrier
import InMemoryDb.Lib.Linearization
import InMemoryDb.Lib.LeadsTo
import InMemoryDb.Lib.Text
import InMemoryDb.Wire.Body
import InMemoryDb.Wire.Call
import InMemoryDb.Storage.Db
import InMemoryDb.Storage.SharedDb
import InMemoryDb.Storage.WalFormat
import InMemoryDb.Storage.Snapshot
import InMemoryDb.Storage.SnapshotFile
import InMemoryDb.Storage.Snapshotter
import InMemoryDb.Storage.Recover
import InMemoryDb.Storage.SegmentNames
import InMemoryDb.Storage.Scan
import InMemoryDb.Storage.Damage
import InMemoryDb.Storage.Sealed
import InMemoryDb.Storage.Corruption
import InMemoryDb.Storage.Unwritten
import InMemoryDb.Storage.SnapshotLog
import InMemoryDb.Server.Types
import InMemoryDb.Server.Acker
import InMemoryDb.Server.Stage1
import InMemoryDb.Server.Framing
import InMemoryDb.Server.Writer
import InMemoryDb.Server.Stage2
import InMemoryDb.Server.Sharing
import InMemoryDb.Server.Stage3.IoWork
import InMemoryDb.Server.Stage3.Engine
import InMemoryDb.Server.Stage3.Moves
import InMemoryDb.Server.Stage3.Line
import InMemoryDb.Server.Stage3.Desk
import InMemoryDb.Server.Stage3.Sound
import InMemoryDb.Server.Stage3.Slots
import InMemoryDb.Server.Stage3.Effort
import InMemoryDb.Server.Stage3.Settles
import InMemoryDb.Server.Stage3.Submission
import InMemoryDb.Server.Stage3.OneFsync
import InMemoryDb.Server.Stage3.Coverage
import InMemoryDb.Server.Stage3.GroupCommit
import InMemoryDb.Server.Stage3.Parking
import InMemoryDb.Server.Stage3.Layout
import InMemoryDb.Server.Stage3.Receipts
import InMemoryDb.Server.Stage3.Progress
import InMemoryDb.Server.Stage3.Journal
import InMemoryDb.Server.Stage3.Archive
import InMemoryDb.Server.Stage3.PowerLoss
import InMemoryDb.Server.Stage3.CrashPrefix
import InMemoryDb.Server.Malformed
import InMemoryDb.Server.Pipeline
import InMemoryDb.Server.Flow
import InMemoryDb.Server.OneReply
import InMemoryDb.Server.ReplyOrder
import InMemoryDb.Server.Linearizable
import InMemoryDb.Server.PageCache
import InMemoryDb.Server.RedoLog
import InMemoryDb.Server.Numbering
import InMemoryDb.Server.Acknowledged
import InMemoryDb.Server.Lifetime
import InMemoryDb.Server.Rotation
import InMemoryDb.Server.Fronts
import InMemoryDb.Server.Retire
import InMemoryDb.Server.ProcessCrash
import InMemoryDb.Server.Durable
import InMemoryDb.Server.Restart
import InMemoryDb.Server.Buffers
import InMemoryDb.Server.Answered
import InMemoryDb.Server.Blocking
import InMemoryDb.Server.Fairness
import InMemoryDb.Client.FrameReader
import InMemoryDb.Client.Link
import InMemoryDb.Client.Board
import InMemoryDb.Client.Sync
import InMemoryDb.Client.Async
import InMemoryDb.Client.Matching
import InMemoryDb.Client.Shutdown
import InMemoryDb.Client.Peer
import InMemoryDb.System.Network
import InMemoryDb.System.Wired
import InMemoryDb.System.EndToEnd
import InMemoryDb.System.OneByOne
