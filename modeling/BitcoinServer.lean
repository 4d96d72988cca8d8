import BitcoinServer.Library.Transition
import BitcoinServer.Library.CText
import BitcoinServer.Library.Scanf
import BitcoinServer.Library.BigEndian
import BitcoinServer.Library.LineSplit
import BitcoinServer.Library.SquareMultiply
import BitcoinServer.Library.Printf
import BitcoinServer.Library.BlockHash
import BitcoinServer.Library.SecureHash
import BitcoinServer.Library.LinkedList
import BitcoinServer.Threads
import BitcoinServer.Command.Dispatch
import BitcoinServer.Command.Reply
import BitcoinServer.Command.Framing
import BitcoinServer.Command.Segmentation
import BitcoinServer.Command.Growth
import BitcoinServer.Command.ReplyFrame
import BitcoinServer.Command.Handlers
import BitcoinServer.Solution.Uint256
import BitcoinServer.Solution.Target
import BitcoinServer.Solution.Buffers
import BitcoinServer.Solution.Sum
import BitcoinServer.Solution.Shift
import BitcoinServer.Solution.Product
import BitcoinServer.Solution.Power
import BitcoinServer.Solution.Exponent
import BitcoinServer.Solution.Verify
import BitcoinServer.Work.Search
import BitcoinServer.Work.SearchInvariant
import BitcoinServer.Work.Partition
import BitcoinServer.Work.Conclusive
import BitcoinServer.Work.Answer
import BitcoinServer.Work.ThreadCount
import BitcoinServer.Work.SeedBuffer
import BitcoinServer.Client.State
import BitcoinServer.Client.Step
import BitcoinServer.Client.Rows
import BitcoinServer.Client.Frame
import BitcoinServer.Client.Control
import BitcoinServer.Client.Queue
import BitcoinServer.Client.Turn
import BitcoinServer.Client.Permits
import BitcoinServer.Client.Slots
import BitcoinServer.Client.Replies
import BitcoinServer.Client.Endings
import BitcoinServer.Client.Abort
import BitcoinServer.Client.Disconnect
import BitcoinServer.Client.Shutdown
import BitcoinServer.Client.Batches
import BitcoinServer.Client.Answers
import BitcoinServer.Solution.Block
import BitcoinServer.Solution.Sha256
import BitcoinServer.Solution.Digest
import BitcoinServer.Work.Safety
import BitcoinServer.Work.Effort
import BitcoinServer.Client.Waiting
import BitcoinServer.Client.Progress
import BitcoinServer.Client.Outcome
import BitcoinServer.Client.QueueHeap
import BitcoinServer.Client.Transcript
import BitcoinServer.Client.Session
import BitcoinServer.Client.Bounds
import BitcoinServer.Server.Accept
import BitcoinServer.Server.ClientSlots
import BitcoinServer.Server.Creation
import BitcoinServer.Server.Connections
import BitcoinServer.Client.Grammar
import BitcoinServer.Server.GlobalWork
import BitcoinServer.Server.WorkCount
import BitcoinServer.Server.Clients
import BitcoinServer.Server.Logger
