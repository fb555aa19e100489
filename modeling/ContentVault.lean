import ContentVault.Backend
import ContentVault.BlobStore
import ContentVault.Buffer
import ContentVault.Bytes
import ContentVault.ChunkReader
import ContentVault.ChunkStore
import ContentVault.ChunkWriter
import ContentVault.Command
import ContentVault.Config.Basic
import ContentVault.Config.Decode
import ContentVault.Config.Open
import ContentVault.ContentKey
import ContentVault.DatabaseFile
import ContentVault.Decimal
import ContentVault.Digest.Algorithm
import ContentVault.Digest.Blake2b
import ContentVault.Digest.BlockHash
import ContentVault.Digest.Digester
import ContentVault.Digest.Md5
import ContentVault.Digest.Sha1
import ContentVault.Digest.Sha256
import ContentVault.Digest.Sha512
import ContentVault.Digest.Words
import ContentVault.DigestUri
import ContentVault.Entry
import ContentVault.Error
import ContentVault.FileTree
import ContentVault.Fixity
import ContentVault.Hex
import ContentVault.Json.Number
import ContentVault.Json.Record
import ContentVault.Json.Text
import ContentVault.Json.Value
import ContentVault.Main
import ContentVault.Manifest
import ContentVault.Path
import ContentVault.Program
import ContentVault.Proofs.AdmittedChunks
import ContentVault.Proofs.CommandLine
import ContentVault.Proofs.CommandRuns
import ContentVault.Proofs.CompletedWrite
import ContentVault.Proofs.ConfigCodec
import ContentVault.Proofs.ConfigFiles
import ContentVault.Proofs.ConfigurationHistory
import ContentVault.Proofs.CopiedValues
import ContentVault.Proofs.Copying
import ContentVault.Proofs.DatabaseHome
import ContentVault.Proofs.DigestFamilies
import ContentVault.Proofs.DigestStream
import ContentVault.Proofs.DirectFailures
import ContentVault.Proofs.DirectHome
import ContentVault.Proofs.DirectRuns
import ContentVault.Proofs.DirectStore
import ContentVault.Proofs.FailingInput
import ContentVault.Proofs.FileNames
import ContentVault.Proofs.FixityCheck
import ContentVault.Proofs.Homes
import ContentVault.Proofs.InertWriters
import ContentVault.Proofs.InterruptedWrite
import ContentVault.Proofs.JsonNumbers
import ContentVault.Proofs.JsonTexts
import ContentVault.Proofs.JsonValues
import ContentVault.Proofs.JsonWriting
import ContentVault.Proofs.KeptManifests
import ContentVault.Proofs.KeyPaths
import ContentVault.Proofs.KeySeparation
import ContentVault.Proofs.KeyTraffic
import ContentVault.Proofs.Leftovers
import ContentVault.Proofs.ManifestCodec
import ContentVault.Proofs.NaturalNumbers
import ContentVault.Proofs.OverlappingWriters
import ContentVault.Proofs.PathNames
import ContentVault.Proofs.ProgramSteps
import ContentVault.Proofs.ReadAhead
import ContentVault.Proofs.ReaderAcceptance
import ContentVault.Proofs.ReaderLoop
import ContentVault.Proofs.ReadingWhileOverwritten
import ContentVault.Proofs.RefusedLoads
import ContentVault.Proofs.RoundTrip
import ContentVault.Proofs.SourceDelivery
import ContentVault.Proofs.StoreCalls
import ContentVault.Proofs.StoredValues
import ContentVault.Proofs.TextBytes
import ContentVault.Proofs.TrackedDraining
import ContentVault.Proofs.TrackedReading
import ContentVault.Proofs.TreeDirectories
import ContentVault.Proofs.TreeFiles
import ContentVault.Proofs.TreeWalks
import ContentVault.Proofs.UnknownKeys
import ContentVault.Proofs.UriGrammar
import ContentVault.Proofs.UriNormalForm
import ContentVault.Proofs.ValueLayout
import ContentVault.Proofs.ValueReading
import ContentVault.Proofs.WriterCalls
import ContentVault.Proofs.WriterInvariant
import ContentVault.Proofs.WriterLoop
import ContentVault.Proofs.WriterProgress
import ContentVault.Proofs.WriterRecords
import ContentVault.Proofs.WriterRuns
import ContentVault.Proofs.WriterTrace
import ContentVault.Source
import ContentVault.StoreConfig
import ContentVault.Text.Blank
import ContentVault.Text.Concealed
import ContentVault.Text.Quoted
import ContentVault.Vault
