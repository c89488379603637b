import SszArchive.Main
import SszArchive.Proofs.Alignment
import SszArchive.Proofs.Atomicity
import SszArchive.Proofs.Between
import SszArchive.Proofs.BrokenChains
import SszArchive.Proofs.CommandLine.Commands
import SszArchive.Proofs.CommandLine.Sessions
import SszArchive.Proofs.CommandLine.Written
import SszArchive.Proofs.Commit
import SszArchive.Proofs.CommitOrder
import SszArchive.Proofs.CommittedChains
import SszArchive.Proofs.Composite
import SszArchive.Proofs.Consistency
import SszArchive.Proofs.Delimited
import SszArchive.Proofs.Description
import SszArchive.Proofs.Directory
import SszArchive.Proofs.DirectoryRuns
import SszArchive.Proofs.Economy
import SszArchive.Proofs.EntryNames
import SszArchive.Proofs.FileTree
import SszArchive.Proofs.Framing
import SszArchive.Proofs.HexText
import SszArchive.Proofs.Identity
import SszArchive.Proofs.Lookup
import SszArchive.Proofs.Machine.Alignment
import SszArchive.Proofs.Machine.Construction
import SszArchive.Proofs.Machine.Exec
import SszArchive.Proofs.Machine.Execute
import SszArchive.Proofs.Machine.Indexed
import SszArchive.Proofs.Machine.Lookup
import SszArchive.Proofs.Machine.Reading
import SszArchive.Proofs.Machine.Replay
import SszArchive.Proofs.Machine.Selecting
import SszArchive.Proofs.Machine.Splitting
import SszArchive.Proofs.Machine.WordDelta
import SszArchive.Proofs.Machine.Writing
import SszArchive.Proofs.MixedBackends
import SszArchive.Proofs.Payload
import SszArchive.Proofs.Placement
import SszArchive.Proofs.Reconstruction
import SszArchive.Proofs.Refinement
import SszArchive.Proofs.Reordering
import SszArchive.Proofs.Replay
import SszArchive.Proofs.RoundTrip
import SszArchive.Proofs.SchemaTree
import SszArchive.Proofs.Scope
import SszArchive.Proofs.ScopePlacement
import SszArchive.Proofs.Selection
import SszArchive.Proofs.Simulation
import SszArchive.Proofs.Store
import SszArchive.Proofs.Streams
import SszArchive.Proofs.Varint
import SszArchive.Proofs.Version
import SszArchive.Proofs.Wire
import SszArchive.Proofs.WordDelta
import SszArchive.Proofs.WordPayload
import SszArchive.Proofs.Machine.Resuming
import SszArchive.Proofs.IdText
import SszArchive.Proofs.Machine.Projection
import SszArchive.Proofs.Sweep
import SszArchive.Proofs.Opening
