import Depot.Archive.Contents
import Depot.Archive.Copying
import Depot.Archive.Fingerprint
import Depot.Archive.Hash
import Depot.Archive.SafeLink
import Depot.Archive.TarStream
import Depot.Checkout.Cache
import Depot.Checkout.Machine
import Depot.Checkout.Site
import Depot.Checkout.Workspace
import Depot.Cli.Grammar
import Depot.Cli.Invocation
import Depot.Cli.Json
import Depot.Cli.Report
import Depot.Cli.Session
import Depot.Digest.Md5
import Depot.Digest.Sha1
import Depot.Digest.Sha256
import Depot.Failure
import Depot.Files.Disk
import Depot.Files.Errno
import Depot.Files.Node
import Depot.History.Access
import Depot.History.Attributes
import Depot.History.Branch
import Depot.History.Commit
import Depot.History.Configuration
import Depot.History.Conversion
import Depot.History.Git
import Depot.History.Objects
import Depot.History.RefName
import Depot.History.Refs
import Depot.History.Repository
import Depot.History.Tracked
import Depot.History.WorkTree
import Depot.History.World
import Depot.Host.Arithmetic
import Depot.Host.Builtin
import Depot.Host.Channel
import Depot.Host.Condition
import Depot.Host.Expansion
import Depot.Host.Finding
import Depot.Host.Format
import Depot.Host.Glyph
import Depot.Host.Interpreter
import Depot.Host.Number
import Depot.Host.Processes
import Depot.Host.Program
import Depot.Host.Quote
import Depot.Host.Reader
import Depot.Host.Real
import Depot.Host.Redirection
import Depot.Host.Regex
import Depot.Host.Run
import Depot.Host.Shell
import Depot.Host.Source
import Depot.Host.Starting
import Depot.Host.Syntax
import Depot.Host.Tool
import Depot.Host.Tool.Compare
import Depot.Host.Tool.Edit
import Depot.Host.Tool.EditScript
import Depot.Host.Tool.Expression
import Depot.Host.Tool.Files
import Depot.Host.Tool.Lines
import Depot.Host.Tool.Order
import Depot.Host.Tool.Raw
import Depot.Host.Tool.Search
import Depot.Host.Tool.Table
import Depot.Host.Tool.Words
import Depot.Main
import Depot.Package.Location
import Depot.Package.Search
import Depot.Package.Target
import Depot.Pairs
import Depot.Path.Components
import Depot.Path.Relative
import Depot.Process.Command
import Depot.Proofs.Archive.Boundary
import Depot.Proofs.Archive.Broken
import Depot.Proofs.Archive.Confinement
import Depot.Proofs.Archive.Contents
import Depot.Proofs.Archive.Copying
import Depot.Proofs.Archive.Drawing
import Depot.Proofs.Archive.Effect
import Depot.Proofs.Archive.Ending
import Depot.Proofs.Archive.Essence
import Depot.Proofs.Archive.Expansion
import Depot.Proofs.Archive.Fingerprint
import Depot.Proofs.Archive.Finiteness
import Depot.Proofs.Archive.Hash
import Depot.Proofs.Archive.Likeness
import Depot.Proofs.Archive.Mirror
import Depot.Proofs.Archive.Plan
import Depot.Proofs.Archive.Projection
import Depot.Proofs.Archive.Reading
import Depot.Proofs.Archive.Rendering
import Depot.Proofs.Archive.SafeLink
import Depot.Proofs.Archive.Settled
import Depot.Proofs.Archive.Stream
import Depot.Proofs.Archive.Telling
import Depot.Proofs.Archive.View
import Depot.Proofs.Checkout.Abreast
import Depot.Proofs.Checkout.Absence
import Depot.Proofs.Checkout.Account
import Depot.Proofs.Checkout.Advance
import Depot.Proofs.Checkout.Answers
import Depot.Proofs.Checkout.Attempt
import Depot.Proofs.Checkout.Canonical
import Depot.Proofs.Checkout.Completion
import Depot.Proofs.Checkout.Constancy
import Depot.Proofs.Checkout.Course
import Depot.Proofs.Checkout.Footprint
import Depot.Proofs.Checkout.Integrity
import Depot.Proofs.Checkout.Layout
import Depot.Proofs.Checkout.Locking
import Depot.Proofs.Checkout.Memo
import Depot.Proofs.Checkout.Portability
import Depot.Proofs.Checkout.Progress
import Depot.Proofs.Checkout.Provenance
import Depot.Proofs.Checkout.Rebuild
import Depot.Proofs.Checkout.Recovery
import Depot.Proofs.Checkout.Refetching
import Depot.Proofs.Checkout.Renaming
import Depot.Proofs.Checkout.Repetition
import Depot.Proofs.Checkout.Restart
import Depot.Proofs.Checkout.Retry
import Depot.Proofs.Checkout.Run
import Depot.Proofs.Checkout.Schedule
import Depot.Proofs.Checkout.Sharing
import Depot.Proofs.Checkout.Store
import Depot.Proofs.Checkout.System
import Depot.Proofs.Checkout.Trace
import Depot.Proofs.Checkout.Tracking
import Depot.Proofs.Checkout.Upkeep
import Depot.Proofs.Cli.Execution
import Depot.Proofs.Cli.Parsing
import Depot.Proofs.Cli.Settings
import Depot.Proofs.Files.Alteration
import Depot.Proofs.Files.Apart
import Depot.Proofs.Files.Confinement
import Depot.Proofs.Files.Deciding
import Depot.Proofs.Files.Enclosure
import Depot.Proofs.Files.Failing
import Depot.Proofs.Files.Growth
import Depot.Proofs.Files.Leading
import Depot.Proofs.Files.Making
import Depot.Proofs.Files.Modes
import Depot.Proofs.Files.Operations
import Depot.Proofs.Files.Resolution
import Depot.Proofs.Files.Spelling
import Depot.Proofs.Files.Tracing
import Depot.Proofs.Files.Tree
import Depot.Proofs.Files.Writing
import Depot.Proofs.History.Clone
import Depot.Proofs.History.Head
import Depot.Proofs.History.Listing
import Depot.Proofs.History.Offer
import Depot.Proofs.History.Refs
import Depot.Proofs.History.Tip
import Depot.Proofs.Package.Branches
import Depot.Proofs.Package.Catalog
import Depot.Proofs.Package.Location
import Depot.Proofs.Package.Search
import Depot.Proofs.Path.Normal
import Depot.Proofs.Path.Parent
import Depot.Proofs.Path.Relative
import Depot.Proofs.Settings.Document
import Depot.Proofs.Settings.File
import Depot.Proofs.Settings.Rules
import Depot.Proofs.Text.Decoding
import Depot.Proofs.Text.Parts
import Depot.Proofs.Text.Utf8
import Depot.Proofs.Toml.Reader
import Depot.Proofs.Toml.Text
import Depot.Settings.Document
import Depot.Settings.Environment
import Depot.Settings.File
import Depot.Settings.Rules
import Depot.Text.Glob
import Depot.Text.Lines
import Depot.Text.Utf8
import Depot.Toml.Number
import Depot.Toml.Reader
import Depot.Toml.Text
import Depot.Toml.Value
import Depot.Toml.Writer
