import NetProjects.Library.EventLoop
import NetProjects.Echo.Server
import NetProjects.Echo.Session
import NetProjects.Tftp.ReadRuns
import NetProjects.Tftp.Encoding
import NetProjects.Tftp.Decoding
import NetProjects.Tftp.StopAndWait
import NetProjects.Tftp.Strangers
import NetProjects.Tftp.Unsupported
import NetProjects.Tftp.Timeouts
import NetProjects.Tftp.Replies
import NetProjects.Tftp.Trail
import NetProjects.Tftp.ShortDatagrams
import NetProjects.Tftp.SingleUpload
import NetProjects.Tftp.Codec
import NetProjects.Tftp.PutThenGet
import NetProjects.Proxy.QueueRuns
import NetProjects.Proxy.Passes
import NetProjects.Proxy.Urls
import NetProjects.Proxy.Eviction
import NetProjects.Proxy.Refresh
import NetProjects.Proxy.Relay
import NetProjects.Proxy.Segments
import NetProjects.Proxy.ConditionalGets
import NetProjects.Proxy.Download
import NetProjects.Proxy.ClientUrl
import NetProjects.Proxy.FailedCalls
import NetProjects.Proxy.Growth
import NetProjects.Proxy.FdCalls
import NetProjects.Proxy.Delivery
import NetProjects.Proxy.Descriptors
import NetProjects.Proxy.Select
import NetProjects.Proxy.EndToEnd
import NetProjects.Chat.Framing
import NetProjects.Chat.Admission
import NetProjects.Chat.Answers
import NetProjects.Chat.Joining
import NetProjects.Chat.Rounds
import NetProjects.Chat.ConnectionList
import NetProjects.Chat.EndToEnd
import NetProjects.Chat.GivenNames
import NetProjects.Chat.NameFields
import NetProjects.Chat.Acks
import NetProjects.Chat.IdleTime
import NetProjects.Chat.TypedLines
import NetProjects.Chat.Order
import NetProjects.Chat.Closing
