import SmartDisk.SearchProgress
import SmartDisk.SimulatedCapacity
import SmartDisk.DecoderQueue
import SmartDisk.ProxyAnswers
import SmartDisk.ProxyErrors
import SmartDisk.SlotErrors
import SmartDisk.RoundTrip
import SmartDisk.BatchBalance
import SmartDisk.FaultIsolation
import SmartDisk.VideoSessions
import SmartDisk.FrameWindow
import SmartDisk.SmartClient
import SmartDisk.FaceFilters
import SmartDisk.GetSmart
import SmartDisk.SearchReturn
import SmartDisk.FuseListing
import SmartDisk.ColorFilters
import SmartDisk.OpenOutcomes
import SmartDisk.Calibration
import SmartDisk.EmCalibration
import SmartDisk.FaceStore
import SmartDisk.DecodedPaths
import SmartDisk.Upsert
import SmartDisk.EmulatedStreams
import SmartDisk.Minidiamond
import SmartDisk.ChunkedMse
import SmartDisk.VideoWorkers
import SmartDisk.PerfGets
import SmartDisk.KineticListener
import SmartDisk.QueueSemaphore
import SmartDisk.PreloadedFrames
import SmartDisk.KineticGetFilter
import SmartDisk.KineticGets
import SmartDisk.FileExtents
import SmartDisk.KineticBatches
import SmartDisk.DecodePipelines
import SmartDisk.ProxyCollisions
