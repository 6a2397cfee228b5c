import Nfs.Lib.PlainFile
import Nfs.Lib.Act
import Nfs.Lib.Intervals
import Nfs.Types
import Nfs.Range
import Nfs.Entry
import Nfs.Cache
import Nfs.CacheFacts
import Nfs.CacheLoops
import Nfs.CacheRules
import Nfs.FlushRules
import Nfs.Coherence
import Nfs.Plain
import Nfs.Transparency
import Nfs.Truncation
import Nfs.WriteBack
import Nfs.Client
import Nfs.ClientRules
import Nfs.Server
import Nfs.System
import Nfs.CloseToOpen
import Nfs.FileOp
import Nfs.Stamps
import Nfs.Acknowledged
import Nfs.LoneClient
import Nfs.Isolation
import Nfs.Lib.Codec
import Nfs.Serial
import Nfs.Framing
import Nfs.Stream
import Nfs.Host
import Nfs.Seek
import Nfs.Respond
import Nfs.Connection
import Nfs.FailedFlush
import Nfs.View
import Nfs.FailedChange
import Nfs.StatSize
import Nfs.Rename
import Nfs.Splitting
import Nfs.Fetching
import Nfs.Lib.Extents
import Nfs.Sending
import Nfs.Eviction
import Nfs.FlushOrder
import Nfs.LeastRecent
import Nfs.Responses
import Nfs.Capacity
import Nfs.Window
import Nfs.Merging
import Nfs.Lib.Layers
import Nfs.Wire
import Nfs.Session
import Nfs.Lockstep
import Nfs.Completion
import Nfs.HostRules
import Nfs.ServerView
import Nfs.Errors
import Nfs.Mount
import Nfs.Disk
import Nfs.DiskRules
import Nfs.Stack
import Nfs.Updates
import Nfs.Network
import Nfs.Parts
import Nfs.Confined
import Nfs.Apart
