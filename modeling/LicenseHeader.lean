import LicenseHeader.Header.Cache
import LicenseHeader.Header.Placement
import LicenseHeader.Path.Relative
import LicenseHeader.Registry
import LicenseHeader.Toml.Table
import LicenseHeader.Toml.Quoted
import LicenseHeader.Toml.Document
import LicenseHeader.FileTree.Node
import LicenseHeader.FileTree.Access
import LicenseHeader.FileTree.Edit
import LicenseHeader.Config.Load
import LicenseHeader.Glob.Match
import LicenseHeader.Scan.Run
import LicenseHeader.CommandLine.Arguments
import LicenseHeader.CommandLine.Usage
import LicenseHeader.CommandLine.LogFilter
import LicenseHeader.CommandLine.Color
import LicenseHeader.CommandLine.Report
import LicenseHeader.CommandLine.Run
import LicenseHeader.Main
import LicenseHeader.Proofs.Encoding
import LicenseHeader.Proofs.Trimming
import LicenseHeader.Proofs.Placement
import LicenseHeader.Proofs.Boundaries
import LicenseHeader.Proofs.Insertion
import LicenseHeader.Proofs.Directive
import LicenseHeader.Proofs.Lookup
import LicenseHeader.Proofs.Tree
import LicenseHeader.Proofs.Paths
import LicenseHeader.Proofs.Absolute
import LicenseHeader.Proofs.Resolution
import LicenseHeader.Proofs.Walk
import LicenseHeader.Proofs.Candidates
import LicenseHeader.Proofs.Cache
import LicenseHeader.Proofs.Check
import LicenseHeader.Proofs.Loop
import LicenseHeader.Proofs.Caching
import LicenseHeader.Proofs.Verdict
import LicenseHeader.Proofs.Reordered
import LicenseHeader.Proofs.Shown
import LicenseHeader.Proofs.Frame
import LicenseHeader.Proofs.IgnoreFiles
import LicenseHeader.Proofs.Entered
import LicenseHeader.Proofs.Headers
import LicenseHeader.Proofs.Rerun
import LicenseHeader.Proofs.Failure
import LicenseHeader.Proofs.Counters
import LicenseHeader.Proofs.Relicense
import LicenseHeader.Proofs.Patterns
import LicenseHeader.Proofs.Selection
import LicenseHeader.Proofs.Configured
import LicenseHeader.Proofs.Layers
import LicenseHeader.Proofs.Lossless
import LicenseHeader.Proofs.Delimiters
import LicenseHeader.Proofs.ReadBack
import LicenseHeader.Proofs.Resaved
import LicenseHeader.Proofs.Arguments
import LicenseHeader.Proofs.ExitStatus
import LicenseHeader.Proofs.Stability
import LicenseHeader.Proofs.FileName
import LicenseHeader.Proofs.ScanOrder
import LicenseHeader.Proofs.Registering
import LicenseHeader.Proofs.Listing
