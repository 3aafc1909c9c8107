import Threadstat.MQueue
import Threadstat.Parse.Canonical
import Threadstat.Parse.Layout
import Threadstat.Parse.Scan
import Threadstat.Perf.RawReader
import Threadstat.Poll.Batch
import Threadstat.Poll.Refusal
import Threadstat.Session
import Threadstat.State.Disk
import Threadstat.State.Order
import Threadstat.System.Create
import Threadstat.System.Host
import Threadstat.System.Sessions
import Threadstat.System.Turns
