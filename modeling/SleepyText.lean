import SleepyText.Client.Session
import SleepyText.Client.Upload
import SleepyText.Client.Navigation
import SleepyText.Server.BranchLog
import SleepyText.Server.WebSocket
import SleepyText.System.Encoding
import SleepyText.System.Listing
import SleepyText.System.Retransmission
import SleepyText.Server.Connection
import SleepyText.Lib.Scan
import SleepyText.Server.Session
import SleepyText.Server.NewBranch
import SleepyText.Client.Frame
import SleepyText.Client.Forest
import SleepyText.Server.Isolation
import SleepyText.Lib.Lines
import SleepyText.Server.Response
import SleepyText.Server.Handlers
import SleepyText.Server.Framing
import SleepyText.Server.Segments
import SleepyText.Server.Find
import SleepyText.Server.Fields
import SleepyText.Server.ContentLength
import SleepyText.Server.Routing
import SleepyText.Server.Slices
import SleepyText.Lib.Reverse
import SleepyText.Server.Numbers
import SleepyText.Lib.Footprint
import SleepyText.Server.Footprints
import SleepyText.Server.Service
import SleepyText.Server.Epoll
import SleepyText.Server.Refinement
import SleepyText.Server.Serial
import SleepyText.Server.ErrorQueue
import SleepyText.Server.Ledger
import SleepyText.Server.Answers
import SleepyText.Client.Drawing
import SleepyText.Client.Window
import SleepyText.Client.Screen
import SleepyText.Client.Handlers
import SleepyText.Client.Typed
import SleepyText.Client.Prompt
import SleepyText.Lib.Shared
import SleepyText.System.Windows
import SleepyText.System.Progress
import SleepyText.Lib.Delimited
import SleepyText.System.ReadBack
