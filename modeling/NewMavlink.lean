import NewMavlink.Lib.Buffer
import NewMavlink.Lib.Codec
import NewMavlink.Lib.Programs
import NewMavlink.Lib.Runs
import NewMavlink.Lib.SlidingWindow
import NewMavlink.Lib.Tables
import NewMavlink.Lib.Replica
import NewMavlink.Lib.CyclicCode
import NewMavlink.Lib.Indexing
import NewMavlink.Lib.Handles
import NewMavlink.Wire
import NewMavlink.Crc16
import NewMavlink.Codecs
import NewMavlink.Mavlink2Adapter
import NewMavlink.Mavlink2Decoders
import NewMavlink.Crypto
import NewMavlink.KeySeparation
import NewMavlink.Record.Replay
import NewMavlink.Record.Header
import NewMavlink.Record.SealOpen
import NewMavlink.Record.RoundTrip
import NewMavlink.Record.SendLog
import NewMavlink.Record.OpenCommit
import NewMavlink.Transport
import NewMavlink.Sockets
import NewMavlink.Channel
import NewMavlink.Handshake.Messages
import NewMavlink.Handshake.Codecs
import NewMavlink.ErrorDetection
import NewMavlink.Handshake.Sessions
import NewMavlink.Handshake.Freshness
import NewMavlink.Handshake.Agreement
import NewMavlink.Handshake.Completion
import NewMavlink.State.Messages
import NewMavlink.State.Publisher
import NewMavlink.State.PublisherRuns
import NewMavlink.State.Snapshots
import NewMavlink.State.Numbering
import NewMavlink.ProxyService
import NewMavlink.ProxyRelay
import NewMavlink.Endpoints.GroundStation
import NewMavlink.Endpoints.Hops
import NewMavlink.Endpoints.VehicleLoop
import NewMavlink.Endpoints.Authenticity
import NewMavlink.Endpoints.Links
import NewMavlink.Endpoints.EndToEnd
import NewMavlink.Endpoints.Px4Probe
import NewMavlink.Parties
import NewMavlink.SecureChannel
import NewMavlink.Nonces
import NewMavlink.Delivery
import NewMavlink.Lib.Fifo
import NewMavlink.Proxy.Queue
import NewMavlink.Proxy.QueueRuns
import NewMavlink.Proxy.QueueLaws
import NewMavlink.Proxy.QueueOrder
import NewMavlink.Proxy.QueueDrain
import NewMavlink.Proxy.Links
import NewMavlink.Proxy.Ingest
import NewMavlink.Proxy.Limits
import NewMavlink.Proxy.Cache
import NewMavlink.Proxy.Ledger
import NewMavlink.Proxy.Effects
import NewMavlink.Proxy.Isolation
import NewMavlink.Proxy.Routing
import NewMavlink.Proxy.Subscribers
import NewMavlink.Proxy.Subscribing
import NewMavlink.Proxy.Generations
import NewMavlink.Proxy.DeltaChain
import NewMavlink.Proxy.EventOrder
import NewMavlink.Proxy.Convergence
import NewMavlink.Proxy.Hub
import NewMavlink.State.Agreement
import NewMavlink.State.Gaps
import NewMavlink.State.Consistency
import NewMavlink.Bounds.Decoders
import NewMavlink.Bounds.Records
