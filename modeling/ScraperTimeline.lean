import ScraperTimeline.Artifact.Cache
import ScraperTimeline.Artifact.Fingerprint
import ScraperTimeline.Axis.Basic
import ScraperTimeline.Axis.Members
import ScraperTimeline.Command.Arguments
import ScraperTimeline.Command.Basic
import ScraperTimeline.Command.Failure
import ScraperTimeline.Command.Run
import ScraperTimeline.Config.Basic
import ScraperTimeline.Config.Reader
import ScraperTimeline.Decimal.Binary64
import ScraperTimeline.Decimal.Layout
import ScraperTimeline.Decimal.Literal
import ScraperTimeline.Decimal.Shortest
import ScraperTimeline.Digest.Crc32
import ScraperTimeline.Digest.Sha256
import ScraperTimeline.Fault
import ScraperTimeline.Files.Basic
import ScraperTimeline.Files.Path
import ScraperTimeline.Instant.Basic
import ScraperTimeline.Instant.Text
import ScraperTimeline.Json.Printer
import ScraperTimeline.Json.Reader
import ScraperTimeline.Json.Record
import ScraperTimeline.Json.Token
import ScraperTimeline.Json.Value
import ScraperTimeline.Main
import ScraperTimeline.Normal.Axis
import ScraperTimeline.Normal.Basic
import ScraperTimeline.Normal.Steps
import ScraperTimeline.Pipeline
import ScraperTimeline.Proofs.Artifact.Damage
import ScraperTimeline.Proofs.Artifact.Envelope
import ScraperTimeline.Proofs.Artifact.Fingerprint
import ScraperTimeline.Proofs.Artifact.Keys
import ScraperTimeline.Proofs.Artifact.Map
import ScraperTimeline.Proofs.Axis.Declared
import ScraperTimeline.Proofs.Axis.Ordered
import ScraperTimeline.Proofs.Axis.Product
import ScraperTimeline.Proofs.Axis.Queries
import ScraperTimeline.Proofs.Axis.Same
import ScraperTimeline.Proofs.Command.DryRun
import ScraperTimeline.Proofs.Decimal.Exact
import ScraperTimeline.Proofs.Decimal.Shortest
import ScraperTimeline.Proofs.Digest.Crc32
import ScraperTimeline.Proofs.Effect
import ScraperTimeline.Proofs.Files.Basic
import ScraperTimeline.Proofs.Files.Ensured
import ScraperTimeline.Proofs.Files.Path
import ScraperTimeline.Proofs.Files.Walk
import ScraperTimeline.Proofs.Instant.Calendar
import ScraperTimeline.Proofs.Instant.Order
import ScraperTimeline.Proofs.Instant.Text
import ScraperTimeline.Proofs.Json.Number
import ScraperTimeline.Proofs.Json.Quoted
import ScraperTimeline.Proofs.Json.Restored
import ScraperTimeline.Proofs.Json.Sorted
import ScraperTimeline.Proofs.Json.Token
import ScraperTimeline.Proofs.Json.Value
import ScraperTimeline.Proofs.Json.Written
import ScraperTimeline.Proofs.Normal.Axes
import ScraperTimeline.Proofs.Normal.Calls
import ScraperTimeline.Proofs.Normal.Done
import ScraperTimeline.Proofs.Normal.Expanded
import ScraperTimeline.Proofs.Normal.Expanding
import ScraperTimeline.Proofs.Normal.FixedPoint
import ScraperTimeline.Proofs.Normal.Framed
import ScraperTimeline.Proofs.Normal.Inlined
import ScraperTimeline.Proofs.Normal.Loop
import ScraperTimeline.Proofs.Normal.Names
import ScraperTimeline.Proofs.Normal.NormalForm
import ScraperTimeline.Proofs.Normal.References
import ScraperTimeline.Proofs.Normal.Reordered
import ScraperTimeline.Proofs.Normal.Returned
import ScraperTimeline.Proofs.Normal.Shape
import ScraperTimeline.Proofs.Normal.Soundness
import ScraperTimeline.Proofs.Normal.Staged
import ScraperTimeline.Proofs.Normal.Steps
import ScraperTimeline.Proofs.Normal.Walk
import ScraperTimeline.Proofs.Pipeline.Contracts
import ScraperTimeline.Proofs.Pipeline.Distinct
import ScraperTimeline.Proofs.Pipeline.Documented
import ScraperTimeline.Proofs.Pipeline.Lifecycle
import ScraperTimeline.Proofs.Pipeline.NormalForms
import ScraperTimeline.Proofs.Pipeline.Reordered
import ScraperTimeline.Proofs.Pipeline.Storable
import ScraperTimeline.Proofs.Pipeline.Unmasked
import ScraperTimeline.Proofs.Pipeline.Yields
import ScraperTimeline.Proofs.Schema.Admits
import ScraperTimeline.Proofs.Schema.Check
import ScraperTimeline.Proofs.Schema.Contract
import ScraperTimeline.Proofs.Schema.Documents
import ScraperTimeline.Proofs.Schema.Locality
import ScraperTimeline.Proofs.Schema.Packaged
import ScraperTimeline.Proofs.Schema.Pointer
import ScraperTimeline.Proofs.Schema.Shape
import ScraperTimeline.Proofs.Source.DefaultSteps
import ScraperTimeline.Proofs.Source.Discovery
import ScraperTimeline.Proofs.Text.Digits
import ScraperTimeline.Proofs.Timeline.Catalogue
import ScraperTimeline.Proofs.Timeline.Chained
import ScraperTimeline.Proofs.Timeline.Changes
import ScraperTimeline.Proofs.Timeline.Clients
import ScraperTimeline.Proofs.Timeline.Coherence
import ScraperTimeline.Proofs.Timeline.Collected
import ScraperTimeline.Proofs.Timeline.Delta
import ScraperTimeline.Proofs.Timeline.Disjoint
import ScraperTimeline.Proofs.Timeline.Document
import ScraperTimeline.Proofs.Timeline.Failed
import ScraperTimeline.Proofs.Timeline.FileStore
import ScraperTimeline.Proofs.Timeline.Foreseen
import ScraperTimeline.Proofs.Timeline.History
import ScraperTimeline.Proofs.Timeline.Inserted
import ScraperTimeline.Proofs.Timeline.Interchange
import ScraperTimeline.Proofs.Timeline.Interleaving
import ScraperTimeline.Proofs.Timeline.Linear
import ScraperTimeline.Proofs.Timeline.Lookup
import ScraperTimeline.Proofs.Timeline.Memory
import ScraperTimeline.Proofs.Timeline.Observed
import ScraperTimeline.Proofs.Timeline.Plan
import ScraperTimeline.Proofs.Timeline.Recompiled
import ScraperTimeline.Proofs.Timeline.Record
import ScraperTimeline.Proofs.Timeline.Reparsed
import ScraperTimeline.Proofs.Timeline.Resumed
import ScraperTimeline.Proofs.Timeline.Retried
import ScraperTimeline.Proofs.Timeline.Rewritten
import ScraperTimeline.Proofs.Timeline.Runs
import ScraperTimeline.Proofs.Timeline.SharedFiles
import ScraperTimeline.Proofs.Timeline.Starts
import ScraperTimeline.Proofs.Timeline.Superseded
import ScraperTimeline.Proofs.Timeline.Sync
import ScraperTimeline.Proofs.Timeline.Undisturbed
import ScraperTimeline.Proofs.Tree.Associative
import ScraperTimeline.Proofs.Tree.Basic
import ScraperTimeline.Proofs.Tree.Equality
import ScraperTimeline.Proofs.Tree.Fields
import ScraperTimeline.Proofs.Tree.Framed
import ScraperTimeline.Proofs.Tree.Merged
import ScraperTimeline.Proofs.Tree.Plain
import ScraperTimeline.Proofs.Tree.Same
import ScraperTimeline.Proofs.Tree.Shape
import ScraperTimeline.Proofs.Tree.Sorted
import ScraperTimeline.Proofs.Tree.Update
import ScraperTimeline.Proofs.Tree.Within
import ScraperTimeline.Proofs.Yaml.Blocks
import ScraperTimeline.Proofs.Yaml.Cursor
import ScraperTimeline.Proofs.Yaml.Literal
import ScraperTimeline.Proofs.Yaml.Nodes
import ScraperTimeline.Proofs.Yaml.Plain
import ScraperTimeline.Proofs.Yaml.Printable
import ScraperTimeline.Proofs.Yaml.Quoted
import ScraperTimeline.Proofs.Yaml.Restored
import ScraperTimeline.Proofs.Yaml.Shape
import ScraperTimeline.Proofs.Yaml.Steps
import ScraperTimeline.Proofs.Yaml.Written
import ScraperTimeline.RunId
import ScraperTimeline.Schema.Basic
import ScraperTimeline.Schema.Check
import ScraperTimeline.Schema.Contract
import ScraperTimeline.Schema.Packaged
import ScraperTimeline.Schema.Reader
import ScraperTimeline.Source.Basic
import ScraperTimeline.Source.Resources
import ScraperTimeline.Text.Blank
import ScraperTimeline.Text.Digits
import ScraperTimeline.Text.Pattern
import ScraperTimeline.Text.Split
import ScraperTimeline.Timeline.Compile
import ScraperTimeline.Timeline.Contention
import ScraperTimeline.Timeline.FileStore
import ScraperTimeline.Timeline.MemoryStore
import ScraperTimeline.Timeline.Reconcile
import ScraperTimeline.Timeline.Record
import ScraperTimeline.Timeline.Store
import ScraperTimeline.Timeline.Sync
import ScraperTimeline.Timeline.Version
import ScraperTimeline.Trace
import ScraperTimeline.Tree.Basic
import ScraperTimeline.Tree.Equality
import ScraperTimeline.Tree.Fields
import ScraperTimeline.Tree.Merge
import ScraperTimeline.Tree.Path
import ScraperTimeline.Tree.Sorted
import ScraperTimeline.Tree.Update
import ScraperTimeline.World
import ScraperTimeline.Yaml.Cursor
import ScraperTimeline.Yaml.Node
import ScraperTimeline.Yaml.Printer
import ScraperTimeline.Yaml.Reader
import ScraperTimeline.Yaml.Scalar
import ScraperTimeline.Yaml.ScalarText
import ScraperTimeline.Yaml.Token
