import YFS.Library.Machine
import YFS.Rpc.ReplyWindow
import YFS.Rpc.Server
import YFS.Rpc.AtMostOnce
import YFS.Rpc.Replay
import YFS.Rpc.Client
import YFS.Rpc.Forgotten
import YFS.Lock.Client
import YFS.Lock.Server
import YFS.Lock.System
import YFS.Lock.Handover
import YFS.Lock.View
import YFS.Lock.Matching
import YFS.Lock.Refinement.Run
import YFS.Lock.MutualExclusion
import YFS.Lock.Handshake
import YFS.Lock.Granted
import YFS.Library.Decimal
import YFS.Extent.Server
import YFS.Dir.Text
import YFS.Fs.Program
import YFS.Fs.Sequential
import YFS.Dir.Layout
import YFS.Fs.FiniteMap
import YFS.Fs.Preservation
import YFS.Fs.AllOrNothing
import YFS.Library.Serial
import YFS.Fs.Concurrent
import YFS.Fs.Discipline
import YFS.Fs.Simulation
import YFS.Fs.Interleaving
import YFS.Fs.Serializable
import YFS.Fs.Linked
import YFS.Fs.Dangling
import YFS.Lock.Cache
import YFS.Lock.CacheSafety
import YFS.Lock.Counted
import YFS.Lock.Waiters
import YFS.Lock.Registry
import YFS.Lock.Stranded
import YFS.Lock.Signals
import YFS.Library.Memory
import YFS.Library.BigEndian
import YFS.Library.OrderedMap
import YFS.Rpc.Marshall
import YFS.Rpc.Wire
import YFS.Rpc.RoundTrip
import YFS.Rpc.Exact
import YFS.Rpc.Inside
import YFS.Rpc.Handler
import YFS.Rpc.Stubs
import YFS.Rpc.Connection
import YFS.Extent.Calls
import YFS.Rpc.Acknowledged
import YFS.Rpc.InProgress
import YFS.Extent.FileStore
import YFS.Fs.Offsets
import YFS.Rpc.Receive
import YFS.Rpc.Send
import YFS.Library.Tally
import YFS.Rpc.References.Balance
import YFS.Extent.Times
import YFS.Rpc.Deadline
import YFS.Rpc.PeerClosed
import YFS.Rpc.Poll
import YFS.Rpc.WriteWatch
import YFS.Rpc.Callers.Delivery
import YFS.Fuse.Handlers
import YFS.Fuse.Replies
import YFS.Fuse.Paging
import YFS.Fuse.Read
import YFS.Rpc.Pool.Shutdown
import YFS.Dir.Readers
import YFS.Rpc.Acceptor
import YFS.Rpc.SelectRange
import YFS.Rpc.Handles
import YFS.Rpc.HandleLifetime
import YFS.Fs.Tree
import YFS.Fs.Deadlock
import YFS.Fs.Linearizable
import YFS.Fs.OverLocks
import YFS.Library.PrefixCode
import YFS.Rpc.ExactlyOnce.Runs
import YFS.Rpc.Link
import YFS.Lock.FirstCome
import YFS.Rpc.Channel
import YFS.Rpc.ReplyBuffers
import YFS.Fuse.Mounted.Refinement
import YFS.Rpc.Fifo
import YFS.Rpc.Cancel.Returns
import YFS.Rpc.Cancel.Stranding
