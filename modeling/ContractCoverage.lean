import ContractCoverage.Code.Bytecode
import ContractCoverage.Code.Disassembly
import ContractCoverage.Code.Instruction
import ContractCoverage.Code.Keccak
import ContractCoverage.Code.Listing
import ContractCoverage.Code.Opcode
import ContractCoverage.Code.Placeholder
import ContractCoverage.CompilerOutput
import ContractCoverage.Coverage.Fragment
import ContractCoverage.Coverage.RangeTable
import ContractCoverage.Coverage.Report
import ContractCoverage.Coverage.Target
import ContractCoverage.Data.Binary64
import ContractCoverage.Data.Decimal
import ContractCoverage.Data.Ident
import ContractCoverage.Data.KeyedList
import ContractCoverage.Data.Number
import ContractCoverage.Data.Rounding
import ContractCoverage.Data.Sorting
import ContractCoverage.Data.Sorting.Merge
import ContractCoverage.Data.Sorting.Run
import ContractCoverage.Data.Sorting.Search
import ContractCoverage.Data.Value
import ContractCoverage.Data.ValueText
import ContractCoverage.Fault
import ContractCoverage.File.Basic
import ContractCoverage.File.Ingest
import ContractCoverage.File.Instructions
import ContractCoverage.File.Replay
import ContractCoverage.File.Tables
import ContractCoverage.Journal
import ContractCoverage.Project.Basic
import ContractCoverage.Project.Ingest
import ContractCoverage.Project.Path
import ContractCoverage.Project.Workspace
import ContractCoverage.Proofs.Coverage.Counts
import ContractCoverage.Proofs.Data.Lookup
import ContractCoverage.Settings
import ContractCoverage.Source.Entry
import ContractCoverage.Source.Fault
import ContractCoverage.Source.LineTable
import ContractCoverage.Source.Location
import ContractCoverage.Source.Range
import ContractCoverage.Source.SourceMap
import ContractCoverage.Text.Blank
import ContractCoverage.Text.DecimalDigit
import ContractCoverage.Text.Fields
import ContractCoverage.Text.Hex
import ContractCoverage.Text.Numeral
import ContractCoverage.Text.Percent
import ContractCoverage.Text.Printable
import ContractCoverage.Text.Quoted
import ContractCoverage.Text.Uppercase
import ContractCoverage.Trace.Frame
import ContractCoverage.Trace.Step
import ContractCoverage.Tree.Index
import ContractCoverage.Tree.Node
import ContractCoverage.Tree.Weight
import ContractCoverage.Proofs.File.Marks
import ContractCoverage.Proofs.File.Recording
import ContractCoverage.Proofs.File.Order
import ContractCoverage.Proofs.Coverage.Built
import ContractCoverage.Proofs.Coverage.Hits
import ContractCoverage.Proofs.Data.Runs
import ContractCoverage.Proofs.File.Visits
import ContractCoverage.Proofs.Data.Chain
import ContractCoverage.Proofs.Tree.Walk
import ContractCoverage.Proofs.Tree.Arms
import ContractCoverage.Proofs.File.Ingestion
import ContractCoverage.Proofs.Source.Compression
import ContractCoverage.Proofs.Project.Recording
import ContractCoverage.Proofs.Tree.Links
import ContractCoverage.Proofs.Coverage.Balance
import ContractCoverage.Proofs.File.History
import ContractCoverage.Proofs.Text.Bytes
import ContractCoverage.Proofs.Code.Pieces
import ContractCoverage.Proofs.Code.Tiling
import ContractCoverage.Proofs.Code.Appended
import ContractCoverage.Proofs.Code.Addresses
import ContractCoverage.Proofs.Code.Linking
import ContractCoverage.Proofs.File.Views
import ContractCoverage.Proofs.File.Relinking
import ContractCoverage.Proofs.Data.Repeated
import ContractCoverage.Proofs.Coverage.Listed
import ContractCoverage.Proofs.File.Reingestion
import ContractCoverage.Proofs.Project.Ingestion
import ContractCoverage.Proofs.Trace.Depths
import ContractCoverage.Proofs.Project.Product
import ContractCoverage.Proofs.Tree.Unreported
import ContractCoverage.Proofs.Tree.Stops
import ContractCoverage.Proofs.File.Reports
import ContractCoverage.Proofs.Coverage.Growth
import ContractCoverage.Proofs.File.Commands
import ContractCoverage.Proofs.Tree.Listing
import ContractCoverage.Proofs.Coverage.Sections
import ContractCoverage.Proofs.File.Listing
import ContractCoverage.Proofs.File.Numbering
import ContractCoverage.Proofs.File.Places
import ContractCoverage.Proofs.Source.Reencoding
import ContractCoverage.Proofs.File.Outlines
import ContractCoverage.Proofs.File.Foreign
import ContractCoverage.Proofs.File.Executed
import ContractCoverage.Proofs.Trace.Nesting
import ContractCoverage.Proofs.Coverage.Additions
import ContractCoverage.Proofs.File.Calls
import ContractCoverage.Proofs.Trace.Calls
import ContractCoverage.Proofs.File.Alignment
import ContractCoverage.Proofs.Source.Positions
import ContractCoverage.Proofs.Tree.Preorder
import ContractCoverage.Proofs.Data.Merging
import ContractCoverage.Proofs.Coverage.Merging
import ContractCoverage.Proofs.Coverage.Apart
import ContractCoverage.Proofs.File.Refusals
import ContractCoverage.Proofs.Coverage.Slots
import ContractCoverage.Proofs.Coverage.Alike
import ContractCoverage.Proofs.File.Twice
import ContractCoverage.Proofs.File.Repeats
import ContractCoverage.Proofs.Text.Margins
import ContractCoverage.Proofs.Code.Hashing
import ContractCoverage.Proofs.Text.Literals
import ContractCoverage.Proofs.Source.Entries
import ContractCoverage.Proofs.Source.Writing
import ContractCoverage.Proofs.Source.Grammar
import ContractCoverage.Proofs.Coverage.Finding
import ContractCoverage.Proofs.Source.Spans
import ContractCoverage.Proofs.Project.Paths
import ContractCoverage.Proofs.Project.Loading
import ContractCoverage.Proofs.File.Strictness
import ContractCoverage.Proofs.File.Ownership
import ContractCoverage.Proofs.Code.Windows
