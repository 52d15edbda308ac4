import Sok.Foundation.Transition
import Sok.Foundation.Search
import Sok.Foundation.Transfer
import Sok.Foundation.Simulation
import Sok.Foundation.Pieces
import Sok.Foundation.Buffer
import Sok.Foundation.PathWalk
import Sok.Foundation.Recency
import Sok.Foundation.Paging
import Sok.Foundation.Mutex
import Sok.Foundation.Locked
import Sok.Foundation.Words
import Sok.Foundation.Chain
import Sok.Text
import Sok.Config.Yaml
import Sok.Config.Places
import Sok.Config.Parse
import Sok.Config.Line
import Sok.Config.RoundTrip
import Sok.Config.Pointers
import Sok.Config.Mapping
import Sok.Config.BlockList
import Sok.Config.Mirror
import Sok.Config.Settled
import Sok.Config.EmptySection
import Sok.Config.Width
import Sok.Config.ListScope
import Sok.Config.Scalars
import Sok.Config.Positions
import Sok.Config.Duplicates
import Sok.Config.Load
import Sok.Config.Site
import Sok.Syscall
import Sok.Socket
import Sok.Cache.Mime
import Sok.Cache.FileCache
import Sok.Cache.Representation
import Sok.Cache.Loading
import Sok.Cache.Lru
import Sok.Cache.Transparency
import Sok.Cache.Paging
import Sok.Cache.Racing
import Sok.Cache.Threads
import Sok.Cache.Returning
import Sok.Cache.Current
import Sok.Http.Headers
import Sok.Http.Response
import Sok.Http.Send
import Sok.Http.BodyLoops
import Sok.Https.Send
import Sok.Https.Lengths
import Sok.Handler
import Sok.Dispatch
import Sok.Http.Request
import Sok.Http.RequestLine
import Sok.Http.HeaderEnd
import Sok.Http.Written
import Sok.Epoll.Listen
import Sok.Epoll.Model
import Sok.Epoll.SingleWorker
import Sok.Epoll.Marks
import Sok.Epoll.PortMap
import Sok.Epoll.Registry
import Sok.Epoll.Attached
import Sok.Serving.Confinement
import Sok.Serving.Framing
import Sok.Serving.ZeroCopy
import Sok.Serving.EndOfFile
import Sok.Serving.Agreement
import Sok.Pool.Model
import Sok.Pool.Execution
import Sok.Pool.Wakeup
import Sok.Pool.Shutdown
import Sok.Serving.WireIntegrity
import Sok.Serving.Boundaries
import Sok.Serving.Asked
import Sok.Serving.Segmentation
import Sok.Serving.Stickiness
import Sok.Serving.KeepAlive
import Sok.Serving.Truncation
import Sok.Serving.Cached
import Sok.Serving.HeaderBlock
import Sok.Serving.Recasing
import Sok.Serving.Replies
import Sok.Tls.Model
import Sok.Tls.Lifetime
import Sok.Tls.Handler
import Sok.Process.Restart
import Sok.Process.Ports
import Sok.Process.Children
import Sok.Process.Recorded
import Sok.Process.Commands
import Sok.Process.Shutdown
import Sok.Process.Settings
import Sok.Serving.Pages
import Sok.Log.Rotation
import Sok.Log.Processes
import Sok.Queue.Model
import Sok.Queue.Layout
import Sok.Queue.Fifo
import Sok.Queue.Destructor
import Sok.Strings.Model
import Sok.Strings.Representation
import Sok.Strings.Histories
import Sok.Strings.Reading
import Sok.Vectors.Model
import Sok.Vectors.Representation
import Sok.Vectors.Histories
import Sok.Vectors.Accounts
