import NovaProva.Core.Types
import NovaProva.Core.Event
import NovaProva.Core.Syslog
import NovaProva.Lib.Bytes
import NovaProva.Lib.Calls
import NovaProva.Lib.Decoder
import NovaProva.Lib.Leb128
import NovaProva.Lib.NearCall
import NovaProva.Lib.OrdMap
import NovaProva.Lib.Regex
import NovaProva.Lib.Runs
import NovaProva.Lib.Segments
import NovaProva.Util.RangeTree
import NovaProva.Util.Filename
import NovaProva.Tree.TestNode
import NovaProva.Tree.MakePath
import NovaProva.Tree.Detach
import NovaProva.Tree.Plan
import NovaProva.Tree.Combinations
import NovaProva.Tree.Names
import NovaProva.Tree.Jobs
import NovaProva.Tree.Classifier
import NovaProva.Tree.Discovery
import NovaProva.Tree.Planned
import NovaProva.Runner.Proxy
import NovaProva.Runner.Pipe
import NovaProva.Runner.Machine
import NovaProva.Runner.Processes
import NovaProva.Runner.Counts
import NovaProva.Runner.Effects
import NovaProva.Runner.Timeouts
import NovaProva.Runner.Delivery
import NovaProva.Runner.Fixtures
import NovaProva.Spiegel.Intercept
import NovaProva.Spiegel.Mock
import NovaProva.Spiegel.Redirect
import NovaProva.Spiegel.Trampoline
import NovaProva.Spiegel.Unmock
import NovaProva.Spiegel.Describe
import NovaProva.Spiegel.Failure
import NovaProva.Spiegel.Mapping
import NovaProva.Spiegel.Sections
import NovaProva.Spiegel.Plt
import NovaProva.Dwarf.Reader
import NovaProva.Dwarf.Numbers
import NovaProva.Dwarf.CompileUnit
import NovaProva.Dwarf.Lineno
import NovaProva.Dwarf.LineUnits
import NovaProva.Dwarf.Walker
import NovaProva.Dwarf.Encode
import NovaProva.Dwarf.Units
import NovaProva.Dwarf.Operands
import NovaProva.Dwarf.Preorder
import NovaProva.Dwarf.Formats
import NovaProva.Dwarf.AnyBytes
import NovaProva.Dwarf.Bounds
import NovaProva.Dwarf.Skipping
import NovaProva.Dwarf.Moves
import NovaProva.Dwarf.Layout
import NovaProva.Spiegel.Address
import NovaProva.Spiegel.Within
import NovaProva.Spiegel.Ranges
import NovaProva.Dwarf.Instructions
import NovaProva.Dwarf.Reported
import NovaProva.Dwarf.Rows
import NovaProva.Dwarf.Unknown
import NovaProva.Dwarf.Bundles
import NovaProva.Dwarf.Hazards
import NovaProva.Spiegel.Loading
import NovaProva.Spiegel.LinkObjects
import NovaProva.Spiegel.Functions
import NovaProva.Spiegel.FullName
import NovaProva.Spiegel.Sizeof
import NovaProva.Spiegel.Signature
import NovaProva.Spiegel.CallLength
import NovaProva.Spiegel.Stacktrace
import NovaProva.Runner.Order
import NovaProva.Runner.Progress
import NovaProva.Runner.Rounds
import NovaProva.Runner.ReturnValue
import NovaProva.Runner.Junit
import NovaProva.Lib.Joined
import NovaProva.Lib.Links
import NovaProva.Lib.MapOfMaps
import NovaProva.Util.Resolve
import NovaProva.Util.Normalise
import NovaProva.Runner.Returned
import NovaProva.Runner.Text
import NovaProva.Runner.Verdicts
import NovaProva.Tree.Deletion
