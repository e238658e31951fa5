import ServiceBridge.Library.Loop
import ServiceBridge.Library.Command
import ServiceBridge.Library.Transition
import ServiceBridge.Library.Strip
import ServiceBridge.Library.Separate
import ServiceBridge.Library.Tally
import ServiceBridge.Library.Mutex
import ServiceBridge.Library.Fifo
import ServiceBridge.Library.Custody
import ServiceBridge.Library.Incremental
import ServiceBridge.Library.Walk
import ServiceBridge.Library.Delimit
import ServiceBridge.Text
import ServiceBridge.Helper
import ServiceBridge.Queue
import ServiceBridge.Server
import ServiceBridge.Connection
import ServiceBridge.Serialization
import ServiceBridge.Interleaving
import ServiceBridge.Locking
import ServiceBridge.Numbering
import ServiceBridge.Pipeline
import ServiceBridge.RequestParser
import ServiceBridge.RequestText
import ServiceBridge.Hex
import ServiceBridge.Reply
import ServiceBridge.RequestHandler
import ServiceBridge.FileSystem
import ServiceBridge.HttpServer
import ServiceBridge.Framing
import ServiceBridge.Stocks
import ServiceBridge.LockfreeQueue
import ServiceBridge.Echo
import ServiceBridge.Theorems.Tokens
import ServiceBridge.Theorems.Delimiters
import ServiceBridge.Theorems.Lines
import ServiceBridge.Theorems.Registry
import ServiceBridge.Theorems.Format
import ServiceBridge.Theorems.Containment
import ServiceBridge.Theorems.FirstMatch
import ServiceBridge.Theorems.ThreadBudget
import ServiceBridge.Theorems.StartUp
import ServiceBridge.Theorems.Accepting
import ServiceBridge.Theorems.Transfers
import ServiceBridge.Theorems.RoundTrip
import ServiceBridge.Theorems.Messages
import ServiceBridge.Theorems.WakeUps
import ServiceBridge.Theorems.Order
import ServiceBridge.Theorems.Clear
import ServiceBridge.Theorems.Locking
import ServiceBridge.Theorems.LockingRun
import ServiceBridge.Theorems.Numbering
import ServiceBridge.Theorems.Pipeline
import ServiceBridge.Theorems.Outputs
import ServiceBridge.Theorems.RequestParser
import ServiceBridge.Theorems.RequestText
import ServiceBridge.Theorems.RequestLanguage
import ServiceBridge.Theorems.RequestPrint
import ServiceBridge.Theorems.Hex
import ServiceBridge.Theorems.UrlDecode
import ServiceBridge.Theorems.RequestHandler
import ServiceBridge.Theorems.Confinement
import ServiceBridge.Theorems.ReplyBytes
import ServiceBridge.Theorems.HttpServer
import ServiceBridge.Theorems.Secrecy
import ServiceBridge.Theorems.ServerPool
import ServiceBridge.Theorems.ServerRun
import ServiceBridge.Theorems.Framing
import ServiceBridge.Theorems.Stocks
import ServiceBridge.Theorems.LockfreeQueue
import ServiceBridge.Theorems.Echo
