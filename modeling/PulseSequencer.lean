import PulseSequencer.Binding.Basic
import PulseSequencer.Binding.Clocks
import PulseSequencer.Binding.Constants
import PulseSequencer.Binding.Edit
import PulseSequencer.Binding.Error
import PulseSequencer.Binding.Function
import PulseSequencer.Binding.Functions
import PulseSequencer.Binding.Pointers
import PulseSequencer.Compile
import PulseSequencer.Document.Basic
import PulseSequencer.Document.Definition
import PulseSequencer.Document.Duration
import PulseSequencer.Document.Loading
import PulseSequencer.Document.PointerKind
import PulseSequencer.Grammar.Definition
import PulseSequencer.Grammar.Document
import PulseSequencer.Grammar.Reader
import PulseSequencer.Grammar.Routine
import PulseSequencer.Grammar.Section
import PulseSequencer.Grammar.Token
import PulseSequencer.Layout.Basic
import PulseSequencer.Layout.File
import PulseSequencer.Main
import PulseSequencer.Output.Calendar
import PulseSequencer.Output.FileName
import PulseSequencer.Output.Listing
import PulseSequencer.Output.Manifest
import PulseSequencer.Program.Basic
import PulseSequencer.Program.Error
import PulseSequencer.Program.Instruction
import PulseSequencer.Program.Routine
import PulseSequencer.Program.Word
import PulseSequencer.Proofs.Grammar.Reads
import PulseSequencer.Proofs.Grammar.Syntax
import PulseSequencer.Sequencer.Basic
import PulseSequencer.Sequencer.Scan
import PulseSequencer.Sequencer.Search
import PulseSequencer.Sequencer.Timing
import PulseSequencer.Source.Map
import PulseSequencer.Source.Span
import PulseSequencer.Text.Binary64
import PulseSequencer.Text.Blank
import PulseSequencer.Text.Json
import PulseSequencer.Text.Numeral
import PulseSequencer.Text.Path
import PulseSequencer.Text.Printable
import PulseSequencer.Text.Quoted
import PulseSequencer.Text.Yaml
import PulseSequencer.Text.Yaml.Meaning
import PulseSequencer.Text.Yaml.Reader
import PulseSequencer.Text.Yaml.Scalar
import PulseSequencer.Text.Yaml.Scan
import PulseSequencer.Text.Yaml.Tag
import PulseSequencer.Text.Yaml.Token
import PulseSequencer.Tool.Arguments
import PulseSequencer.Tool.Compiler
import PulseSequencer.Tool.FileTree
import PulseSequencer.Tool.Host
import PulseSequencer.Tool.Settings
import PulseSequencer.Tool.SourceFiles
import PulseSequencer.Tool.Timer
import PulseSequencer.Tool.Tracing
import PulseSequencer.Proofs.Grammar.Soundness
import PulseSequencer.Proofs.Grammar.Length
import PulseSequencer.Proofs.Grammar.Rows
import PulseSequencer.Proofs.Grammar.Completeness
import PulseSequencer.Proofs.Grammar.Acceptance
import PulseSequencer.Proofs.Binding.Tables
import PulseSequencer.Proofs.Program.Building
import PulseSequencer.Proofs.Program.Translation
import PulseSequencer.Proofs.Binding.Waveform
import PulseSequencer.Proofs.Document.Loading
import PulseSequencer.Proofs.Document.Written
import PulseSequencer.Proofs.Text.Numerals
import PulseSequencer.Proofs.Output.Lines
import PulseSequencer.Proofs.Program.Encoding
import PulseSequencer.Proofs.Output.Image
import PulseSequencer.Proofs.Document.Merging
import PulseSequencer.Proofs.Sequencer.Trace
import PulseSequencer.Proofs.Sequencer.RunTime
import PulseSequencer.Proofs.Program.Closing
import PulseSequencer.Proofs.Sequencer.Search
import PulseSequencer.Proofs.Sequencer.Closure
import PulseSequencer.Proofs.Outcome
import PulseSequencer.Proofs.Binding.Editing
import PulseSequencer.Proofs.Binding.Cycles
import PulseSequencer.Proofs.Document.Spans
import PulseSequencer.Proofs.Binding.Errors
import PulseSequencer.Proofs.Program.Errors
import PulseSequencer.Proofs.Document.Names
import PulseSequencer.Proofs.Sequencer.Levels
import PulseSequencer.Proofs.Grammar.Offsets
import PulseSequencer.Proofs.Source.Map
import PulseSequencer.Proofs.Document.Files
import PulseSequencer.Proofs.Source.Location
import PulseSequencer.Proofs.Program.Decoding
import PulseSequencer.Proofs.Program.Targets
import PulseSequencer.Proofs.Sequencer.Halting
import PulseSequencer.Proofs.Grammar.Prefixes
import PulseSequencer.Proofs.Sequencer.Recursion
import PulseSequencer.Proofs.Grammar.FaultyLine
import PulseSequencer.Proofs.Program.Ranges
import PulseSequencer.Proofs.Program.Kinds
import PulseSequencer.Proofs.Text.Paths
import PulseSequencer.Proofs.Document.Graph
import PulseSequencer.Proofs.Sequencer.Variants
import PulseSequencer.Proofs.Output.Frames
import PulseSequencer.Proofs.Sequencer.Triggers
import PulseSequencer.Proofs.Grammar.Context
import PulseSequencer.Proofs.Grammar.Faithful
import PulseSequencer.Proofs.Grammar.Shift
import PulseSequencer.Proofs.Program.UsedBits
import PulseSequencer.Proofs.Binding.InPlace
import PulseSequencer.Proofs.Binding.Starts
import PulseSequencer.Proofs.Binding.Drafts
import PulseSequencer.Proofs.Binding.PointerStore
import PulseSequencer.Proofs.Program.Spellings
import PulseSequencer.Proofs.Output.Calendar
import PulseSequencer.Proofs.Source.Offsets
import PulseSequencer.Proofs.Text.FileNames
import PulseSequencer.Proofs.Output.ListingPaths
import PulseSequencer.Proofs.Tool.Places
import PulseSequencer.Proofs.Tool.FileTree
import PulseSequencer.Proofs.Tool.Runs
import PulseSequencer.Proofs.Tool.Listings
import PulseSequencer.Proofs.Binding.KeptSlices
import PulseSequencer.Proofs.Binding.Samples
import PulseSequencer.Proofs.Binding.TwoWay
import PulseSequencer.Proofs.Binding.Numbering
import PulseSequencer.Proofs.Program.DefaultFunction
import PulseSequencer.Proofs.Text.NormalForm
import PulseSequencer.Proofs.Grammar.Loops
