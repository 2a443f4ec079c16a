import CodeOnLinux.Foundation.Transition
import CodeOnLinux.Foundation.Merge
import CodeOnLinux.Foundation.Components
import CodeOnLinux.Foundation.Threads
import CodeOnLinux.Foundation.Chain
import CodeOnLinux.Foundation.Machine
import CodeOnLinux.Foundation.Agreement
import CodeOnLinux.Foundation.Descriptors
import CodeOnLinux.Foundation.Stdio
import CodeOnLinux.Foundation.Escape
import CodeOnLinux.Foundation.Lines
import CodeOnLinux.Foundation.Fgets
import CodeOnLinux.Foundation.Header
import CodeOnLinux.Foundation.Response
import CodeOnLinux.Foundation.Blocks
import CodeOnLinux.Foundation.DirPath
import CodeOnLinux.LinkList.Node
import CodeOnLinux.LinkList.Sequence
import CodeOnLinux.LinkList.Separation
import CodeOnLinux.LinkList.Refusal
import CodeOnLinux.Pub.Url
import CodeOnLinux.Pub.InPlace
import CodeOnLinux.Pub.Canonical
import CodeOnLinux.Pub.Components
import CodeOnLinux.Pub.GetLine
import CodeOnLinux.Pub.Draining
import CodeOnLinux.Pub.Mime
import CodeOnLinux.Pub.HeaderBlock
import CodeOnLinux.Threads.Cond
import CodeOnLinux.Threads.CondNodes
import CodeOnLinux.Threads.CondRest
import CodeOnLinux.Threads.SemaphoreSync
import CodeOnLinux.Threads.SemaphoreRounds
import CodeOnLinux.Threads.Printers
import CodeOnLinux.Threads.MutexAdd
import CodeOnLinux.Threads.ReadWriteLock
import CodeOnLinux.ProcessServer.RecChild
import CodeOnLinux.Chatroom.Server
import CodeOnLinux.Chatroom.Broadcast
import CodeOnLinux.Chatroom.Relays
import CodeOnLinux.Chatroom.ParentTable
import CodeOnLinux.Echo.Trim
import CodeOnLinux.Echo.InBounds
import CodeOnLinux.ProcessServer.Server
import CodeOnLinux.ProcessServer.Connections
import CodeOnLinux.ProcessServer.Conversations
import CodeOnLinux.ProcessServer.Clients
import CodeOnLinux.UdpServer.Server
import CodeOnLinux.UdpServer.Clients
import CodeOnLinux.MysqlClient.Client
import CodeOnLinux.FifoMessager.Message
import CodeOnLinux.FifoMessager.Talk
import CodeOnLinux.Fifo.Messages
import CodeOnLinux.PsGrep.Pipeline
import CodeOnLinux.FileCopy.Copy
import CodeOnLinux.CountFiles.Count
import CodeOnLinux.ThreadServer.Server
import CodeOnLinux.ThreadServer.Isolation
import CodeOnLinux.EpollServer.Server
import CodeOnLinux.EpollServer.Batch
import CodeOnLinux.EpollServer.Lifetime
import CodeOnLinux.SelectServer.Pass
import CodeOnLinux.SelectServer.Watch
import CodeOnLinux.SelectServer.Client
import CodeOnLinux.ShareFile.Offset
import CodeOnLinux.WebServer.Server
import CodeOnLinux.WebServer.Words
import CodeOnLinux.WebServer.Connection
import CodeOnLinux.WebServer.Reading
import CodeOnLinux.WebServer.Delivery
import CodeOnLinux.WebServer.Decision
import CodeOnLinux.WebServer.Closing
import CodeOnLinux.WebServer.Simulation
import CodeOnLinux.WebServer.EventLoop
import CodeOnLinux.WebServer.Sessions
import CodeOnLinux.WebServer.Stranded
import CodeOnLinux.DebugServer.Server
import CodeOnLinux.LibeventServer.Server
import CodeOnLinux.LibeventServer.Reading
import CodeOnLinux.LibeventServer.Connection
import CodeOnLinux.LibeventServer.Delivery
import CodeOnLinux.LibeventServer.Framing
import CodeOnLinux.LibeventServer.Dispatch
import CodeOnLinux.Web.Routing
import CodeOnLinux.Web.Confinement
import CodeOnLinux.Web.Links
import CodeOnLinux.Web.EdgeTriggered
import CodeOnLinux.Web.Transfer
import CodeOnLinux.Web.DeclaredLength
import CodeOnLinux.Web.ReadBack
import CodeOnLinux.Web.Tokens
import CodeOnLinux.Web.DirectoryPage
