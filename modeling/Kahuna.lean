import Kahuna.Timeline.Basic
import Kahuna.Timeline.Stretches
import Kahuna.Timeline.Turns
import Kahuna.Transducer.Basic
import Kahuna.Transducer.Grouping
import Kahuna.Outline.Ancestors
import Kahuna.Outline.ParentOf
import Kahuna.Outline.Folding
import Kahuna.Outline.Marks
import Kahuna.Outline.Gathering
import Kahuna.Outline.Repeats
import Kahuna.Outline.Trees
import Kahuna.FiniteMap.Basic
import Kahuna.FiniteMap.Keys
import Kahuna.Transition.Basic
import Kahuna.History.Basic
import Kahuna.RangeQuery.Basic
import Kahuna.Framing.Basic
import Kahuna.Batching.Basic
import Kahuna.Prefixes.Basic
import Kahuna.Notify.Basic
import Kahuna.Numerals.Basic
import Kahuna.Numerals.Decimal
import Kahuna.Numerals.Grouping
import Kahuna.Numerals.Bytes
import Kahuna.Leb128.Basic
import Kahuna.Text.Basic
import Kahuna.Text.Separators
import Kahuna.Inclusion.Basic
import Kahuna.Decoders.Basic
import Kahuna.Decoders.Uart.Decode
import Kahuna.Decoders.Uart.Polarity
import Kahuna.Decoders.Uart.RoundTrip
import Kahuna.Decoders.Uart.Overflow
import Kahuna.Decoders.I2c.Decode
import Kahuna.Decoders.I2c.Framing
import Kahuna.Decoders.I2c.ByteIntegrity
import Kahuna.Decoders.I2c.Accounting
import Kahuna.Decoders.I2c.Trace
import Kahuna.Decoders.I2c.RoundTrip
import Kahuna.Decoders.I2c.Thinning
import Kahuna.Decoders.I2c.Phases
import Kahuna.Decoders.I2c.Spans
import Kahuna.Decoders.Spi.Decode
import Kahuna.Decoders.Spi.Isolation
import Kahuna.Decoders.Spi.RoundTrip
import Kahuna.Decoders.Spi.Spans
import Kahuna.Decoders.Settings
import Kahuna.Decoders.Redundant
import Kahuna.Decoders.Guessing
import Kahuna.Decoders.Spans
import Kahuna.ItemTree.Basic
import Kahuna.ItemTree.Covering
import Kahuna.ItemTree.MoveItems
import Kahuna.ItemTree.WellFormed
import Kahuna.ItemTree.Insertion
import Kahuna.ItemTree.Shown
import Kahuna.ItemTree.Keyboard
import Kahuna.ItemTree.KeyboardLaw
import Kahuna.ItemTree.Atomic
import Kahuna.ItemTree.References
import Kahuna.ItemTree.Moves
import Kahuna.ItemTree.Parents
import Kahuna.ItemTree.Folds
import Kahuna.ItemTree.Selection
import Kahuna.ItemTree.Gathering
import Kahuna.ItemTree.Offering
import Kahuna.ItemTree.Placing
import Kahuna.Wave.Data
import Kahuna.Wave.Update
import Kahuna.Wave.Effects
import Kahuna.Wave.Instances
import Kahuna.Wave.References
import Kahuna.Wave.Drawing
import Kahuna.Wave.DecodeCache
import Kahuna.Wave.UndoRedo
import Kahuna.Wave.Canvases
import Kahuna.Wave.Streams
import Kahuna.Wave.Bijection
import Kahuna.Wave.Markers
import Kahuna.Wave.AnnotationGroups
import Kahuna.Wave.Displays
import Kahuna.Wave.Layers
import Kahuna.Wave.Inserting
import Kahuna.Wave.Names
import Kahuna.Wave.Folding
import Kahuna.Wave.Gestures
import Kahuna.Wave.NewGroup
import Kahuna.Wave.LaneDrawing
import Kahuna.Wave.Candidates
import Kahuna.Wave.Placing
import Kahuna.Wave.DecoderRows
import Kahuna.Wave.Scopes
import Kahuna.Wave.MinimalNames
import Kahuna.Time.Basic
import Kahuna.Time.Parse
import Kahuna.Time.Format
import Kahuna.Time.Grouping
import Kahuna.Translation.Basic
import Kahuna.Translation.Representation
import Kahuna.Translation.Leb
import Kahuna.Translation.FixedPoint
import Kahuna.Translation.Signed
import Kahuna.Translation.Fields
import Kahuna.Translation.Mapping
import Kahuna.Translation.MappingFile
import Kahuna.Translation.MappingLaw
import Kahuna.Translation.MappingTable
import Kahuna.Analog.Basic
import Kahuna.Analog.Query
import Kahuna.Cxxrtl.QueryContainer
import Kahuna.Cxxrtl.Packing
import Kahuna.Cxxrtl.Worker
import Kahuna.Cxxrtl.Basic
import Kahuna.Cxxrtl.Connection
import Kahuna.Cxxrtl.Waiting
import Kahuna.Cxxrtl.Attribution
import Kahuna.Cxxrtl.Freshness
import Kahuna.Cxxrtl.Populate
import Kahuna.Cxxrtl.QueryLaw
import Kahuna.Wellen.Basic
import Kahuna.Wellen.Loading
import Kahuna.Wellen.Once
import Kahuna.Wellen.Enumeration
import Kahuna.Surver.Basic
import Kahuna.Surver.Requests
import Kahuna.Surver.Wakeup
import Kahuna.Surver.Disk
import Kahuna.Surver.NotModified
import Kahuna.Surver.OneGeneration
import Kahuna.Surver.Survival
import Kahuna.Surver.Routes
import Kahuna.Remote.Client
import Kahuna.Remote.Answers
import Kahuna.FileHistory.Labels
import Kahuna.FileHistory.Recent
import Kahuna.MemoryViewer.Basic
import Kahuna.MemoryViewer.Answers
import Kahuna.MemoryViewer.Freshness
import Kahuna.MemoryViewer.Steady
import Kahuna.Command.Fzcmd
import Kahuna.Command.ItemIndex
import Kahuna.Command.Message
import Kahuna.Command.Parser
import Kahuna.Worker.Basic
import Kahuna.Batch.Basic
import Kahuna.Batch.Order
import Kahuna.Batch.Typing
import Kahuna.View.Basic
import Kahuna.View.ClipTo
import Kahuna.View.Jumps
import Kahuna.View.Motion
import Kahuna.Wcp.Adding
import Kahuna.Wcp.Program
import Kahuna.Wcp.Removing
import Kahuna.Wcp.Session
import Kahuna.Wcp.Server
import Kahuna.Relay.Basic
import Kahuna.Wcp.Handler
import Kahuna.Lanes.Basic
import Kahuna.Transactions.Basic
import Kahuna.Transactions.Rows
import Kahuna.Neighbours.Basic
import Kahuna.Transactions.Stepping
import Kahuna.Precedence.Basic
import Kahuna.Translation.Kinds
import Kahuna.Translation.Numeric
import Kahuna.Sorting.Basic
import Kahuna.Wave.VariableList
import Kahuna.Analog.Registry
import Kahuna.Chunks.Basic
import Kahuna.FrameBuffer.Pixels
import Kahuna.Wave.Transitions
import Kahuna.Analog.Plot
import Kahuna.Analog.Limits
import Kahuna.ItemTree.Iterators
import Kahuna.Bisection.Basic
import Kahuna.Wellen.TimeTable
import Kahuna.Cxxrtl.Timestamp
import Kahuna.Paths.Basic
import Kahuna.Cxxrtl.ScopeNames
import Kahuna.Transactions.Drawing
import Kahuna.Wave.Digital
import Kahuna.Wave.Skipping
import Kahuna.Batch.Prompt
import Kahuna.Command.Expansion
import Kahuna.Command.Times
import Kahuna.View.Ticks


