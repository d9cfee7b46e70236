import RemoteDict.Foundation.Block
import RemoteDict.Foundation.Table
import RemoteDict.Foundation.Wire
import RemoteDict.Foundation.Machine
import RemoteDict.Foundation.Journal
import RemoteDict.Foundation.Lockstep
import RemoteDict.Foundation.Ledger
import RemoteDict.Foundation.Rotation
import RemoteDict.Foundation.Word
import RemoteDict.Foundation.Indexed
import RemoteDict.Foundation.Batch
import RemoteDict.Foundation.Pieces
import RemoteDict.Foundation.Bits
import RemoteDict.Foundation.Sketch
import RemoteDict.Foundation.Precedence
import RemoteDict.Foundation.Linearization
import RemoteDict.Foundation.Potential
import RemoteDict.Messagebody
import RemoteDict.Codec
import RemoteDict.Store
import RemoteDict.BloomFilter
import RemoteDict.TcpFlow
import RemoteDict.Writes
import RemoteDict.Client
import RemoteDict.Framing
import RemoteDict.Overrun
import RemoteDict.Reassembly
import RemoteDict.Dropped
import RemoteDict.Requests
import RemoteDict.Response
import RemoteDict.Completed
import RemoteDict.Transparency
import RemoteDict.Handlers
import RemoteDict.Capacity
import RemoteDict.Overshoot
import RemoteDict.Calls
import RemoteDict.Counters
import RemoteDict.StatAnswer
import RemoteDict.TrueCounts
import RemoteDict.Startup
import RemoteDict.ServiceThread
import RemoteDict.Handoff
import RemoteDict.ServiceWorker
import RemoteDict.Server
import RemoteDict.Workers
import RemoteDict.Shutdown
import RemoteDict.Accounting
import RemoteDict.Departure
import RemoteDict.Progress
import RemoteDict.Launch
import RemoteDict.Handshake
import RemoteDict.CommandLine
import RemoteDict.RoundRobin
import RemoteDict.InputFile
import RemoteDict.Chunks
import RemoteDict.ClientRun
import RemoteDict.Results
import RemoteDict.Outcomes
import RemoteDict.Formats
import RemoteDict.TestClient
import RemoteDict.Latency
import RemoteDict.BloomAlgebra
import RemoteDict.Compressible
import RemoteDict.KeyValue
import RemoteDict.Connections
import RemoteDict.Sequential
import RemoteDict.Network
import RemoteDict.Answering
import RemoteDict.Freshness
