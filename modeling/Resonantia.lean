import Resonantia.Library.Slice
import Resonantia.Library.Triple
import Resonantia.F0.EditInterference
import Resonantia.F0.PitchEdit
import Resonantia.Web.NumberText
import Resonantia.Web.TaskRecord
import Resonantia.Web.TaskStore
import Resonantia.Web.ArtifactSwap
import Resonantia.Web.DecodedWav
import Resonantia.Web.AudioPlan
import Resonantia.Web.AudioRequest
import Resonantia.Web.PlanRoundTrip
import Resonantia.Library.CachedLoop
import Resonantia.Library.BlockLoop
import Resonantia.Library.Scatter
import Resonantia.Library.BinaryFloat
import Resonantia.Library.Numeral
import Resonantia.Pipeline.ResumableLoop
import Resonantia.Pipeline.Checked
import Resonantia.Io.RawSampleSpool
import Resonantia.Io.BlockCheckpoint
import Resonantia.Pipeline.Reflected
import Resonantia.Pipeline.ReflectedReads
import Resonantia.Pipeline.F0Window
import Resonantia.Pipeline.RawF0
import Resonantia.Pipeline.QuietPlanner
import Resonantia.Pipeline.Synthesis
import Resonantia.Pipeline.SpoolLoops
import Resonantia.Pipeline.Resume
import Resonantia.Library.Transition
import Resonantia.Library.Search
import Resonantia.Web.RecordUpdate
import Resonantia.Web.RecordLife
import Resonantia.Web.JobControl
import Resonantia.Web.JobProtocol
import Resonantia.Web.JobRefinement
import Resonantia.Web.JobSteps
import Resonantia.Web.JobRuns
import Resonantia.Web.TaskArtifacts
import Resonantia.Web.TaskCleanup
import Resonantia.Web.Multipart
import Resonantia.Library.Bytes
import Resonantia.Library.Json
import Resonantia.Io.SafetensorsHeader
import Resonantia.Io.SafetensorsScan
import Resonantia.Io.SafetensorsFormat
import Resonantia.Io.SafetensorsData
import Resonantia.Library.FloatArithmetic
import Resonantia.Library.FloatWord
import Resonantia.Training.JointCheckpoint
import Resonantia.Training.RunResume
import Resonantia.Training.RunState
import Resonantia.Library.FileSystem
import Resonantia.Io.BlockFiles
import Resonantia.Io.BlockOpening
import Resonantia.Io.BlockSession
import Resonantia.Io.BlockCatalog
import Resonantia.Io.BlockCrash
import Resonantia.Io.BlockAccounting
import Resonantia.Io.SpoolStorage
import Resonantia.Io.SpoolRefinement
import Resonantia.Io.WavFile
import Resonantia.Io.WavAgreement
import Resonantia.Io.WavWriter
import Resonantia.Io.WavCanonical
import Resonantia.Io.WavProtocol
import Resonantia.Io.AudioExcerpt
import Resonantia.Library.ReverseMode
import Resonantia.Autograd.Backward
import Resonantia.Library.InputStream
import Resonantia.Web.RecordCodec
import Resonantia.Web.RecordBytes
import Resonantia.Web.RecordRecovery
import Resonantia.Web.RecordStore
import Resonantia.Pipeline.FrameEnergies
import Resonantia.Pipeline.QuietBound
import Resonantia.Pipeline.Highpass
import Resonantia.Pipeline.LegacyCuts
import Resonantia.Pipeline.LegacyF0
import Resonantia.Pipeline.ProcessedF0
import Resonantia.Pipeline.Loudness
import Resonantia.Pipeline.OutputWriter
import Resonantia.Pipeline.Stitching
import Resonantia.Pipeline.StableSnapshot
import Resonantia.AppSupport.ProgressProtocol
import Resonantia.AppSupport.Preprocess
import Resonantia.Web.ObserveProgress
import Resonantia.Separation.ChunkedForward
import Resonantia.Separation.Stft
import Resonantia.Library.SecureHash
import Resonantia.Library.WorkerPool
import Resonantia.Core.Sha256
import Resonantia.Index.CudaFlatIndex
import Resonantia.Index.FlatIndexFile
import Resonantia.Index.FlatIndexLoad
import Resonantia.Index.FlatIndexRoundTrip
import Resonantia.Library.FieldFraming
import Resonantia.AppSupport.OperationIdentity
import Resonantia.Web.AudioRange
import Resonantia.Web.UploadNames
import Resonantia.Web.Boundary
import Resonantia.Web.RequestFraming
import Resonantia.Separation.VadSegments
import Resonantia.AppSupport.PreprocessSlices
import Resonantia.AppSupport.PreprocessOutputs
import Resonantia.AppSupport.OperationSession
import Resonantia.AppSupport.InitialDirectory
import Resonantia.Training.CheckpointRetention
