import XmBase.Lib.Run
import XmBase.Lib.Atomic
import XmBase.Lib.Bytes
import XmBase.Lib.FlatMemory
import XmBase.Lib.Layout
import XmBase.Lib.Pool
import XmBase.Lib.Word
import XmBase.Lib.ShiftRegister
import XmBase.Lib.ShiftPolynomial
import XmBase.Lib.Mixer
import XmBase.Lib.Json
import XmBase.Lib.Regex
import XmBase.Concurrency.SeqlockRing
import XmBase.Concurrency.RingSystem
import XmBase.Concurrency.RingInv
import XmBase.Concurrency.RingReader
import XmBase.Concurrency.RingAnswers
import XmBase.Concurrency.RingCrashFree
import XmBase.Concurrency.RingRefinement
import XmBase.Concurrency.RingCrash
import XmBase.Concurrency.RingSolo
import XmBase.Concurrency.RingRecovery
import XmBase.Concurrency.BoundedLoad
import XmBase.Concurrency.RingProgress
import XmBase.Concurrency.SpscQueue
import XmBase.Concurrency.SpscFifo
import XmBase.Concurrency.DepthGauge
import XmBase.Concurrency.EventCount
import XmBase.Concurrency.WaitTime
import XmBase.Concurrency.RegionStorage
import XmBase.Concurrency.RegionRing
import XmBase.Concurrency.RegionCarves
import XmBase.Concurrency.MutexSlot
import XmBase.Serialization.Checksum
import XmBase.Serialization.CrcRemainder
import XmBase.Serialization.ByteOrder
import XmBase.Telemetry.ArgPack
import XmBase.Telemetry.Binding
import XmBase.Telemetry.Format
import XmBase.Telemetry.ConsoleFormat
import XmBase.Telemetry.UnboundFormat
import XmBase.Telemetry.Attribution
import XmBase.Telemetry.FormatterAgreement
import XmBase.Telemetry.SpecLanguage
import XmBase.Telemetry.FormatSpec
import XmBase.Telemetry.Printf
import XmBase.Telemetry.FloatingArg
import XmBase.Telemetry.PackIntegrity
import XmBase.Telemetry.IntegerRendering
import XmBase.Telemetry.NumberRoom
import XmBase.Telemetry.SpecGrammar
import XmBase.Telemetry.Histogram
import XmBase.Telemetry.MetricSlots
import XmBase.Telemetry.Span
import XmBase.Telemetry.TraceForest
import XmBase.Telemetry.Ids
import XmBase.Telemetry.EventSource
import XmBase.Testing.BenchReport
import XmBase.Concurrency.WeakRing
import XmBase.Concurrency.WeakAnswers
import XmBase.Concurrency.WeakFifo
import XmBase.Concurrency.WorkerInbox
import XmBase.Telemetry.ConsoleLine
import XmBase.Telemetry.ConsoleSink
import XmBase.Telemetry.Propagation
