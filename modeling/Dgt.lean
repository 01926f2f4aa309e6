import Dgt.Defs
import Dgt.Slicer
import Dgt.SlicerCorrect
import Dgt.Message
import Dgt.Contri
import Dgt.Channel
import Dgt.Send
import Dgt.Fragment
import Dgt.Dispatch
import Dgt.Run
import Dgt.Rate
import Dgt.PullCallback
import Dgt.Worker
import Dgt.Server
import Dgt.Cluster
import Dgt.ShardSend
