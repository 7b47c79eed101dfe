import Par3.BackendAllocation
import Par3.Barycentric
import Par3.BatchedRows
import Par3.CauchySystem
import Par3.ChecksumContract
import Par3.ChunkCapacity
import Par3.ChunkReaderContract
import Par3.CodeParameters
import Par3.CoeffInputs
import Par3.ConcatPool
import Par3.ConversionContract
import Par3.CpuContract
import Par3.CreatedPackets
import Par3.DamagedPacket
import Par3.FengerEngineContract
import Par3.Foundations.Interleaving
import Par3.Foundations.LinearProbing
import Par3.Foundations.Runs
import Par3.FrobeniusContract
import Par3.Gf64InvertContract
import Par3.HashPool
import Par3.InputContract
import Par3.InputRing
import Par3.InvertContract
import Par3.Foundations.LeadingMinors
import Par3.RecoveryRows
import Par3.InvmodMod
import Par3.ArgParser
import Par3.ArgParserContract
import Par3.Md5MultiContract
import Par3.MultiPointInterp
import Par3.RecoveryExponents
import Par3.RecoveryPool
import Par3.RecoverySlices
import Par3.RecoveryRingContract
import Par3.RecoveryCounts
import Par3.ChunkPlan
import Par3.SliceSizeContract
import Par3.OpenclShares
import Par3.RestoredFiles
import Par3.RhsPaths
import Par3.SeqReads
import Par3.SliceChecksums
import Par3.HasherCalls
import Par3.SolverContract
import Par3.ThrottleContract
import Par3.TrustedContract
import Par3.VerifyContract
import Par3.MatrixCache
import Par3.RecoveryPackets
import Par3.InverseLanes
import Par3.Foundations.VectorLanes
import Par3.Gf16Pmul
import Par3.MatrixRows
import Par3.Foundations.ByteVectors
import Par3.Foundations.BlockLoops
import Par3.ShuffleTables
import Par3.ShuffleProducts
import Par3.ShuffleKernels
import Par3.ShuffleContract
import Par3.Foundations.RegionLoops
import Par3.KaratsubaScratch
import Par3.InterleavedContract
import Par3.Blake3Contract
import Par3.RegionVectors
import Par3.RegionVectorsContract
import Par3.MuladdMulti
import Par3.MuladdMultiContract
import Par3.ArchiveRecovery
