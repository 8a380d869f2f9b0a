import Vmars.CMemory
import Vmars.Occurrence
import Vmars.ByteRing
import Vmars.SimpleBoyerMoore
import Vmars.FixParser
import Vmars.FixParserLoops
import Vmars.FixMessage
import Vmars.FixDecode
import Vmars.FixParserExtension
import Vmars.FixParserSafety
import Vmars.FixTokens
import Vmars.FixChecksum
import Vmars.SpscRb
import Vmars.SpscRbRecords
import Vmars.SpscRbInterleaving
import Vmars.SpscRbSession
import Vmars.FixDetails
import Vmars.FixFields
import Vmars.FixCapture
import Vmars.FixMeasurement
import Vmars.FixExtraction
import Vmars.FixFraming
import Vmars.FixReassembly
import Vmars.FixRounds
import Vmars.FixConservation
import Vmars.FixCursor
import Vmars.FixResync
import Vmars.FixCapacity
import Vmars.FixContinuation
import Vmars.FixIsolation
import Vmars.FixFragmentStore
import Vmars.FixOutcomes
import Vmars.KeyedMachine
import Vmars.PendingSlot
import Vmars.LatencyHandler
import Vmars.LatencyCompleteness
import Vmars.LatencyDuplicates
import Vmars.LatencyKey
import Vmars.OrderKey
import Vmars.LatencyMeasurement
import Vmars.JodieClient
import Vmars.Batching
import Vmars.JodieDatagrams
import Vmars.JodieDup
import Vmars.PacketCapture
import Vmars.TrafficAccounting
import Vmars.LatencyDraining
import Vmars.SpscRbInit
import Vmars.SpscRbNarrowing
import Vmars.SpscRbRepeats
import Vmars.MainOptions
import Vmars.MainThreads
import Vmars.CounterHandler
import Vmars.TriangularProbing
import Vmars.OpenAddressing
import Vmars.Khash
import Vmars.KhashFlags
import Vmars.KhashLookup
import Vmars.KhashResize
import Vmars.KhashTable
import Vmars.LatencyTable
import Vmars.FragmentTable
import Vmars.CaptureLog
import Vmars.Pipeline
import Vmars.HandoffRing
import Vmars.PacketRing
import Vmars.CaptureSteps
import Vmars.CounterPolling
import Vmars.LatencyReports
import Vmars.CapturePipeline
import Vmars.BoundedQueue
import Vmars.SpscRbLinearization
import Vmars.AddressSpace
import Vmars.MapBuffer
import Vmars.Fanout
