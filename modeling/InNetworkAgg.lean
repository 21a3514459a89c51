import InNetworkAgg.Framing
import InNetworkAgg.ChunkMean
import InNetworkAgg.TreeRounding
import InNetworkAgg.AggTree
import InNetworkAgg.Transport
import InNetworkAgg.AlarmTokens
import InNetworkAgg.AlarmTimer
import InNetworkAgg.NestedAverage
import InNetworkAgg.RingFits
import InNetworkAgg.Stops
import InNetworkAgg.Round
import InNetworkAgg.ChunkLoop
import InNetworkAgg.Codec
import InNetworkAgg.ResponseLoop
import InNetworkAgg.ByteQueue
import InNetworkAgg.QuicTag
import InNetworkAgg.Untrusted
import InNetworkAgg.TraceRegistry
import InNetworkAgg.VegasSender
import InNetworkAgg.GroupSize
import InNetworkAgg.AlarmFires
import InNetworkAgg.CopaRuns
import InNetworkAgg.LinkFile
import InNetworkAgg.Datagrams
import InNetworkAgg.Sessions
import InNetworkAgg.Startup
import InNetworkAgg.Pace
import InNetworkAgg.EarlyStop
import InNetworkAgg.LossReport
