import Pdwfs.Concurrency.Program
import Pdwfs.Concurrency.Pool
import Pdwfs.Concurrency.Simulation
import Pdwfs.Concurrency.Histories
import Pdwfs.Redis.Bytes
import Pdwfs.Striping.Image
import Pdwfs.Redis.Commands
import Pdwfs.Redis.Views
import Pdwfs.Util.Strconv
import Pdwfs.Util.ConsistentHash
import Pdwfs.Redisfs.Redis
import Pdwfs.Redisfs.Keys
import Pdwfs.Redisfs.Layout
import Pdwfs.Redisfs.Store
import Pdwfs.Redisfs.StoreInvariant
import Pdwfs.Redisfs.Size
import Pdwfs.Redisfs.Requests
import Pdwfs.Redisfs.Reachable
import Pdwfs.Redisfs.Growth
import Pdwfs.Redisfs.Writes
import Pdwfs.Redisfs.File
import Pdwfs.Redisfs.Reads
import Pdwfs.Redisfs.Resizes
import Pdwfs.Redisfs.Accounting
import Pdwfs.Filepath.Path
import Pdwfs.Filepath.Abspath
import Pdwfs.Redisfs.Inodes
import Pdwfs.Redisfs.Fs
import Pdwfs.Redisfs.Metadata
import Pdwfs.Redisfs.Observations
import Pdwfs.Redisfs.FastPaths
import Pdwfs.Redisfs.Handles
import Pdwfs.Util.Wrapping
import Pdwfs.Redis.Limits
import Pdwfs.Redisfs.Wrapped
import Pdwfs.Config.Config
import Pdwfs.Redisfs.Overflow
import Pdwfs.Redisfs.Vectored
import Pdwfs.Redisfs.Ranges
import Pdwfs.Redisfs.Representable
import Pdwfs.Redisfs.Transit
import Pdwfs.Redisfs.Namespace
import Pdwfs.Redisfs.Calls
import Pdwfs.Redisfs.Cache
import Pdwfs.Redisfs.Client
import Pdwfs.Redisfs.Sharing
import Pdwfs.Redisfs.Tree
import Pdwfs.Redisfs.Activity
import Pdwfs.Redisfs.AccessModes
import Pdwfs.Redisfs.Appends
import Pdwfs.Redisfs.Lookups
import Pdwfs.Redisfs.Creations
import Pdwfs.Redisfs.Directories
import Pdwfs.Redisfs.Exclusive
import Pdwfs.Redisfs.Collective
import Pdwfs.Redisfs.Removal
import Pdwfs.Redisfs.Contents
import Pdwfs.Redisfs.Subtrees
import Pdwfs.Redisfs.NewFiles
import Pdwfs.Redisfs.Failures
import Pdwfs.Intercept.Descriptors
import Pdwfs.Intercept.EntryPoints
import Pdwfs.Intercept.FileCalls
import Pdwfs.Intercept.Unlinking
import Pdwfs.Intercept.Mounts
import Pdwfs.Intercept.MountList
import Pdwfs.Intercept.PathBuffer
import Pdwfs.Intercept.Streams
import Pdwfs.Util.Buffers
import Pdwfs.Intercept.Lines
import Pdwfs.Intercept.Fgets
import Pdwfs.Util.Streams
import Pdwfs.Redigo.Wire
import Pdwfs.Redigo.Replies
import Pdwfs.Redis.Renaming
import Pdwfs.Redigo.Pool
import Pdwfs.Concurrency.Atomic
import Pdwfs.Redigo.Server
import Pdwfs.Redigo.ActiveConn
import Pdwfs.Redisfs.Messages
import Pdwfs.Redisfs.RoundTrips
import Pdwfs.Redisfs.Conversations
import Pdwfs.Redisfs.Exchanges
import Pdwfs.Redisfs.Linearizable
import Pdwfs.Redisfs.Completion
import Pdwfs.Util.Circle
import Pdwfs.Redisfs.Placement
import Pdwfs.Concurrency.Schedules
import Pdwfs.Redisfs.Overlaps
import Pdwfs.Intercept.Stdio
import Pdwfs.Concurrency.Workers
import Pdwfs.Redigo.Conversions
import Pdwfs.Redisfs.Wired
import Pdwfs.Redisfs.EndToEnd
