import StegoDisk.Failures
import StegoDisk.Feistel
import StegoDisk.SquareRoot
import StegoDisk.StegoMath
import StegoDisk.Hash
import StegoDisk.Permutations
import StegoDisk.PermutationCorrect
import StegoDisk.PermutationSizes
import StegoDisk.Bits
import StegoDisk.Encoders
import StegoDisk.HammingCorrect
import StegoDisk.VirtualStorage
import StegoDisk.StorageInvariant
import StegoDisk.CarrierFile
import StegoDisk.CarrierFilesManager
import StegoDisk.StegoStorage
import StegoDisk.Segments
import StegoDisk.Shares
import StegoDisk.Interleaving
import StegoDisk.LoadTasks
import StegoDisk.ThreadPool
import StegoDisk.PoolRuns
import StegoDisk.PooledFiles
import StegoDisk.Packing
import StegoDisk.Prepared
import StegoDisk.Codec
import StegoDisk.LoadSave
import StegoDisk.Opening
import StegoDisk.Loading
import StegoDisk.Directories
import StegoDisk.Attached
import StegoDisk.Saving
import StegoDisk.Checksums
import StegoDisk.Sessions
import StegoDisk.RoundTrip
import StegoDisk.SpareCarriers
import StegoDisk.Interrupted
import StegoDisk.Layout
import StegoDisk.Runs
import StegoDisk.Operations
import StegoDisk.Reflection
import StegoDisk.FailedLoads
import StegoDisk.HammingMinimal
import StegoDisk.MixedHalves
import StegoDisk.UserAccess
import StegoDisk.KeyDerivation
import StegoDisk.MpegPackets
import StegoDisk.Configuration
import StegoDisk.ConfiguredRuns
import StegoDisk.Distortion
import StegoDisk.SavedAgain
import StegoDisk.Containers
import StegoDisk.PacketTimes
import StegoDisk.PacketSelection
import StegoDisk.MountedFile
import StegoDisk.FileTypes
import StegoDisk.Capacities
import StegoDisk.BlockBounds
import StegoDisk.CoefficientSelection
import StegoDisk.BitmapFiles
import StegoDisk.TrailingBytes
import StegoDisk.StoredFiles
import StegoDisk.PermutationRuns
import StegoDisk.Fields
import StegoDisk.BitCounts
import StegoDisk.ModularProducts
import StegoDisk.MillerRabin
import StegoDisk.AffineSearch
import StegoDisk.PrimeSearch
import StegoDisk.Keccak
import StegoDisk.ChecksumLengths
import StegoDisk.ContextFitness
import StegoDisk.Json
import StegoDisk.JsonRoundTrip
import StegoDisk.Disk
import StegoDisk.DiskRefinement
import StegoDisk.MountedSessions
import StegoDisk.Alterations
import StegoDisk.IncrementalSaves
import StegoDisk.StoredSessions
import StegoDisk.JsonStrings
import StegoDisk.JsonGrammar
import StegoDisk.Heap
import StegoDisk.BufferObjects
import StegoDisk.BufferValues
import StegoDisk.BufferRuns
import StegoDisk.UnkeyedPermutation
import StegoDisk.KeccakRefinement
import StegoDisk.Muxing
import StegoDisk.PacketCarriers
