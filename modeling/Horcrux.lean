import Horcrux.Lib.Agents
import Horcrux.Lib.Decimal
import Horcrux.Lib.Lists
import Horcrux.Lib.LittleEndian
import Horcrux.Lib.MersenneTwister
import Horcrux.Lib.Segments
import Horcrux.Lib.Shared
import Horcrux.Lib.SharedPtr
import Horcrux.Lib.Slots
import Horcrux.Lib.WriteOnce
import Horcrux.Utils
import Horcrux.HorcruxData
import Horcrux.Requests
import Horcrux.TcpConnection
import Horcrux.Session
import Horcrux.TcpServer
import Horcrux.Asio
import Horcrux.IoContext
import Horcrux.Client
import Horcrux.Main
import Horcrux.Network
import Horcrux.Conversation
import Horcrux.Upload
import Horcrux.History
import Horcrux.Cluster
import Horcrux.Scheduler
import Horcrux.EventLoop
import Horcrux.Epoll
import Horcrux.Proofs.Files
import Horcrux.Proofs.SaveAndLoad
import Horcrux.Proofs.CommandLine
import Horcrux.Proofs.Situation
import Horcrux.Proofs.Connection
import Horcrux.Proofs.Grammar
import Horcrux.Proofs.Storing
import Horcrux.Proofs.FileIds
import Horcrux.Proofs.Isolation
import Horcrux.Proofs.Limits
import Horcrux.Proofs.Requests
import Horcrux.Proofs.Shipping
import Horcrux.Proofs.Splitting
import Horcrux.Proofs.Partition
import Horcrux.Proofs.Network
import Horcrux.Proofs.Exchange
import Horcrux.Proofs.Rejoin
import Horcrux.Proofs.Feeding
import Horcrux.Proofs.Progress
import Horcrux.Proofs.Chain
import Horcrux.Proofs.Errors
import Horcrux.Proofs.Verdicts
import Horcrux.Proofs.Draws
import Horcrux.Proofs.Asio
import Horcrux.Proofs.Archive
import Horcrux.Proofs.History
import Horcrux.Proofs.Cluster
import Horcrux.Proofs.Service
import Horcrux.Proofs.Main
import Horcrux.Proofs.IoContext
import Horcrux.Proofs.ShortWrites
import Horcrux.Proofs.Scheduler
import Horcrux.Proofs.EventLoop
import Horcrux.Proofs.Epoll
import Horcrux.Proofs.Waiting
import Horcrux.Proofs.Turns
import Horcrux.Proofs.Served
import Horcrux.Proofs.Wakeups
import Horcrux.Proofs.Heard
