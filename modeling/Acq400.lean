import Acq400.Proofs.Accumulate
import Acq400.Proofs.Acq435Decode
import Acq400.Proofs.Acq465
import Acq400.Proofs.AiDataLoop
import Acq400.Proofs.AllocHbm
import Acq400.Proofs.AoImmediate
import Acq400.Proofs.AwgComposer
import Acq400.Proofs.AwgMem
import Acq400.Proofs.AwgSegments
import Acq400.Proofs.AxiOneshot
import Acq400.Proofs.AxiStream
import Acq400.Proofs.BbStream
import Acq400.Proofs.BbqSend
import Acq400.Proofs.CaptureLength
import Acq400.Proofs.CaptureServer
import Acq400.Proofs.ChannelRange
import Acq400.Proofs.DawgTiming
import Acq400.Proofs.DescrLoads
import Acq400.Proofs.Dio432
import Acq400.Proofs.DistReg
import Acq400.Proofs.DualAxiOffset
import Acq400.Proofs.DualPairing
import Acq400.Proofs.EventHandOver
import Acq400.Proofs.EventReader
import Acq400.Proofs.FillFifo
import Acq400.Proofs.FirstEdge
import Acq400.Proofs.FitMemory
import Acq400.Proofs.FsAccess
import Acq400.Proofs.FsControl
import Acq400.Proofs.GainOffset
import Acq400.Proofs.GpgMem
import Acq400.Proofs.GroupTrigger
import Acq400.Proofs.HbRead
import Acq400.Proofs.Knobs
import Acq400.Proofs.LivePP
import Acq400.Proofs.LoadConcurrent
import Acq400.Proofs.LoadPad
import Acq400.Proofs.MaskedStream
import Acq400.Proofs.MatchFilter
import Acq400.Proofs.MrOffload
import Acq400.Proofs.MultiEvent
import Acq400.Proofs.OptimiseBufferlen
import Acq400.Proofs.PhasedArray
import Acq400.Proofs.Pl330Copy
import Acq400.Proofs.Pl330Wakeup
import Acq400.Proofs.PlayloopLength
import Acq400.Proofs.ReaderRace
import Acq400.Proofs.RegCache
import Acq400.Proofs.RegfsPage
import Acq400.Proofs.RtmTrim
import Acq400.Proofs.SegmentQueue
import Acq400.Proofs.SegmentTable
import Acq400.Proofs.SetSpans
import Acq400.Proofs.SewFifo
import Acq400.Proofs.SkipES
import Acq400.Proofs.SlowMon
import Acq400.Proofs.SoftTrigger
import Acq400.Proofs.SpadCop
import Acq400.Proofs.StoreSignal
import Acq400.Proofs.StreamDisk
import Acq400.Proofs.StridedFile
import Acq400.Proofs.SubrateGather
import Acq400.Proofs.Transient
import Acq400.Proofs.Transmitter
import Acq400.Proofs.Wavegen
import Acq400.Proofs.WindBack
import Acq400.Proofs.WrClient
import Acq400.Proofs.WrPredictor
import Acq400.Proofs.WrtdNetwork
