import Zroxy.Lib.OffsetMemory
import Zroxy.Lib.Runs
import Zroxy.Lib.Outbox
import Zroxy.Lib.RingMemory
import Zroxy.Lib.MachineInt
import Zroxy.Lib.Loops
import Zroxy.Lib.Incremental
import Zroxy.Lib.Transducers
import Zroxy.Lib.Ownership
import Zroxy.Lib.Forwarding
import Zroxy.Utils.BufferManager
import Zroxy.Utils.BufferAllocation
import Zroxy.Utils.BufferSizes
import Zroxy.Utils.IoHelper
import Zroxy.Utils.CircularBuffer
import Zroxy.Connections.ConnTypes
import Zroxy.Connections.HandleClient
import Zroxy.Parsers.StringComp
import Zroxy.Parsers.PicoHttpParser
import Zroxy.Parsers.MessageText
import Zroxy.Parsers.TextParsing
import Zroxy.Parsers.FastScanning
import Zroxy.Parsers.ChunkedDecoder
import Zroxy.Parsers.ChunkedText
import Zroxy.Parsers.HttpParser
import Zroxy.Parsers.RequestLayout
import Zroxy.Parsers.HostRewriting
import Zroxy.Parsers.HeaderTable
import Zroxy.Events.SslCallbacks
import Zroxy.Events.PlainCallbacks
import Zroxy.Events.ProxyCallbacks
import Zroxy.Events.SslEffects
import Zroxy.Events.UnreadParts
import Zroxy.Events.ConnEffects
import Zroxy.Events.ProxyEffects
import Zroxy.Events.DescriptorIo
import Zroxy.Events.ClientRelay
import Zroxy.Events.EpollManager
import Zroxy.Events.LoopInvariant
import Zroxy.Events.SocketNumbers
import Zroxy.Properties.OutgoingTls
import Zroxy.Properties.PlainBufferBounds
import Zroxy.Properties.BackendRelay
import Zroxy.Properties.ClosedDescriptors
import Zroxy.Properties.Segmentation
import Zroxy.Properties.Teardown
import Zroxy.Properties.EdgeTriggered
import Zroxy.Properties.IdleTimer
import Zroxy.Properties.PlainRelay
import Zroxy.Properties.TakeOrLeave
import Zroxy.Properties.BackendGrowth
import Zroxy.Properties.EncryptQueue
import Zroxy.Properties.RewriteTable
import Zroxy.Properties.RewriteBounds
import Zroxy.Properties.RewriteSelection
import Zroxy.Properties.RewriteBytes
import Zroxy.Properties.EncryptTermination
import Zroxy.Properties.PlainReceiveBounds
import Zroxy.Properties.ReadBuffer
import Zroxy.Properties.SourceConsumption
import Zroxy.Properties.WbioDrained
import Zroxy.Properties.BackendAttempt
import Zroxy.Properties.CircularQueue
import Zroxy.Properties.CircularDoubling
import Zroxy.Properties.ByteComparison
import Zroxy.Properties.FullnessTests
import Zroxy.Properties.GrowthLimit
import Zroxy.Properties.MessageGrammar
import Zroxy.Properties.ParserVerdicts
import Zroxy.Properties.CompletenessCheck
import Zroxy.Properties.FastScanners
import Zroxy.Properties.ChunkedInPlace
import Zroxy.Properties.ChunkedBody
import Zroxy.Properties.ChunkedGrammar
import Zroxy.Server.EventServer
import Zroxy.Server.DescriptorAccounts
import Zroxy.Server.LoopProjection
import Zroxy.Properties.ServerAccounts
import Zroxy.Properties.ServerRuns
import Zroxy.Properties.DescriptorLaw
import Zroxy.Properties.PendingEvents
import Zroxy.Properties.QueuedPlaintext
import Zroxy.Properties.PieceForwarding
import Zroxy.Properties.ConveyedPlaintext
import Zroxy.Properties.ServerConveyance
import Zroxy.Properties.RewrittenText
import Zroxy.Properties.NullReads
