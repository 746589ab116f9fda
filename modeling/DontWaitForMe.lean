import DontWaitForMe.Foundation.Machine
import DontWaitForMe.Foundation.Observer
import DontWaitForMe.Foundation.Credits
import DontWaitForMe.Foundation.Tally
import DontWaitForMe.Foundation.Path
import DontWaitForMe.Foundation.Lifetimes
import DontWaitForMe.Foundation.Lines
import DontWaitForMe.Foundation.Csv
import DontWaitForMe.Foundation.Linearizable
import DontWaitForMe.Foundation.Client
import DontWaitForMe.Foundation.Inevitable
import DontWaitForMe.Foundation.Fifo
import DontWaitForMe.Foundation.Lexical
import DontWaitForMe.Foundation.Tickets
import DontWaitForMe.Foundation.Accounts
import DontWaitForMe.Foundation.Chain
import DontWaitForMe.Locked.Messages
import DontWaitForMe.Locked.Monitor
import DontWaitForMe.Locked.Shutdown
import DontWaitForMe.Locked.Lifecycle
import DontWaitForMe.Futex.Libwait
import DontWaitForMe.Futex.Server
import DontWaitForMe.Futex.Broadcast
import DontWaitForMe.Futex.Shutdown
import DontWaitForMe.Futex.Counter
import DontWaitForMe.Futex.Blocking
import DontWaitForMe.MsQueue.Model
import DontWaitForMe.MsQueue.Invariant
import DontWaitForMe.MsQueue.Steps
import DontWaitForMe.MsQueue.Linearizable
import DontWaitForMe.MsQueue.Progress
import DontWaitForMe.MsQueue.LockFree
import DontWaitForMe.MsQueue.Server
import DontWaitForMe.LearnQueue.Model
import DontWaitForMe.LearnQueue.Chain
import DontWaitForMe.LearnQueue.Steps
import DontWaitForMe.LearnQueue.Intact
import DontWaitForMe.LearnQueue.Reclaim
import DontWaitForMe.LearnQueue.Output
import DontWaitForMe.LearnQueue.Alone
import DontWaitForMe.LearnQueue.Solo
import DontWaitForMe.Lcrq.Model
import DontWaitForMe.Lcrq.Ring
import DontWaitForMe.Lcrq.Invariant
import DontWaitForMe.Lcrq.Steps
import DontWaitForMe.Lcrq.Simulation
import DontWaitForMe.Lcrq.Dequeue
import DontWaitForMe.Lcrq.Enqueue
import DontWaitForMe.Lcrq.Linearizable
import DontWaitForMe.Lcrq.Overflow
import DontWaitForMe.Lcrq.Server
import DontWaitForMe.Lcrq.Livelock
import DontWaitForMe.Lcrq.SoloEnqueue
import DontWaitForMe.Lcrq.SoloDequeue
import DontWaitForMe.Lcrq.SoloTake
import DontWaitForMe.Lcrq.Polling
import DontWaitForMe.CcSynch.Model
import DontWaitForMe.CcSynch.Invariant
import DontWaitForMe.CcSynch.Steps
import DontWaitForMe.CcSynch.Linearizable
import DontWaitForMe.Oyama.Model
import DontWaitForMe.Oyama.Invariant
import DontWaitForMe.Oyama.Linearizable
import DontWaitForMe.Oyama.Stranded
import DontWaitForMe.Sim.ToggleVector
import DontWaitForMe.Sim.Model
import DontWaitForMe.Sim.Invariant
import DontWaitForMe.Sim.Frame
import DontWaitForMe.Sim.Steps
import DontWaitForMe.Sim.Rounds
import DontWaitForMe.Sim.Publish
import DontWaitForMe.Sim.Linearizable
import DontWaitForMe.Sim.WaitFree
import DontWaitForMe.Synch.Pool
import DontWaitForMe.Synch.Clh
import DontWaitForMe.Synch.Guards
import DontWaitForMe.Synch.Turns
import DontWaitForMe.LfStack.Model
import DontWaitForMe.LfStack.Linearizable
import DontWaitForMe.LocksQueue.Model
import DontWaitForMe.LocksQueue.Invariant
import DontWaitForMe.LocksQueue.Steps
import DontWaitForMe.LocksQueue.Linearizable
import DontWaitForMe.LocksQueue.Progress
import DontWaitForMe.LearnCas.Counter
import DontWaitForMe.Http.CString
import DontWaitForMe.Http.Connection
import DontWaitForMe.Http.WebRoot
import DontWaitForMe.Http.Headers
import DontWaitForMe.Http.RequestLine
import DontWaitForMe.Http.Grammar
import DontWaitForMe.Http.Outcome
import DontWaitForMe.Http.Response
import DontWaitForMe.Http.MainLoop
import DontWaitForMe.Http.Serving
import DontWaitForMe.Http.Answer
import DontWaitForMe.Bench.HttperfToTsv
import DontWaitForMe.Bench.BigTable
import DontWaitForMe.Bench.Rerun
import DontWaitForMe.Bench.Pipeline
