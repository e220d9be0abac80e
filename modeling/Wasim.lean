import Wasim.Library.Outcome
import Wasim.Library.Leb128
import Wasim.Library.Bytes
import Wasim.Library.Utf8
import Wasim.Library.Nested
import Wasim.Library.Lanes
import Wasim.Library.InStep
import Wasim.Library.Total
import Wasim.Library.Threads
import Wasim.Library.Territory
import Wasim.Library.Printing
import Wasim.Library.Packing
import Wasim.Library.LinkedList
import Wasim.Library.StructLayout
import Wasim.Library.Rounding
import Wasim.Base.Lane
import Wasim.Base.Arena
import Wasim.Base.ArenaRuns
import Wasim.Base.ArenaScopes
import Wasim.Base.ArenaFits
import Wasim.Base.ArenaGrowth
import Wasim.Base.Allocator
import Wasim.Base.AllocatorRuns
import Wasim.Base.Xar
import Wasim.Base.HandleMap
import Wasim.Base.HandleMapRuns
import Wasim.Base.HandleMapLive
import Wasim.Binary.Wasm
import Wasim.Binary.Reader
import Wasim.Binary.Expr
import Wasim.Binary.Sections
import Wasim.Binary.Encoding
import Wasim.Binary.ReaderSpec
import Wasim.Binary.Cursor
import Wasim.Binary.CursorScopes
import Wasim.Binary.ExprRun
import Wasim.Binary.Layout
import Wasim.Binary.Controls
import Wasim.Binary.ExprClose
import Wasim.Binary.ExprArena
import Wasim.Binary.ExprLog
import Wasim.Binary.ExprKept
import Wasim.Binary.ExprCopy
import Wasim.Binary.ExprElse
import Wasim.Binary.ExprSound
import Wasim.Binary.Readers
import Wasim.Binary.RoundTrip
import Wasim.Binary.LebNumbers
import Wasim.Binary.Immediates
import Wasim.Binary.Scan
import Wasim.Binary.EntryPoint
import Wasim.Binary.LaneRuns
import Wasim.Binary.DiagFrame
import Wasim.Binary.LaneAgree
import Wasim.Binary.PlainSections
import Wasim.Binary.Ranges
import Wasim.Binary.Positions
import Wasim.Binary.Takes
import Wasim.Binary.Reached
import Wasim.Binary.Fields
import Wasim.Binary.Copied
import Wasim.Binary.LaneSteps
import Wasim.Binary.LaneTotal
import Wasim.Binary.FileTotal
import Wasim.Binary.Files
import Wasim.Binary.Consumed
import Wasim.Binary.Accepts
import Wasim.Text.Keywords
import Wasim.Text.Numbers
import Wasim.Text.Tokenizer
import Wasim.Text.Tokens
import Wasim.Text.Lexemes
import Wasim.Text.Classifier
import Wasim.Text.Integers
import Wasim.Text.Floats
import Wasim.Text.FloatLiterals
import Wasim.Text.FloatRounding
import Wasim.Text.Parser
import Wasim.Text.Advances
import Wasim.Text.Fields
import Wasim.Text.Grammar
import Wasim.Text.Reading
import Wasim.Text.Blanks
import Wasim.Text.Strings
import Wasim.Text.Tiling
import Wasim.Text.StringTokens
import Wasim.Text.Runes
import Wasim.Text.HexLiterals
import Wasim.Text.HexNearest
import Wasim.Text.RowsCols
import Wasim.Text.Reports
import Wasim.Text.Recovery
import Wasim.Text.Closing
import Wasim.Text.TypeDecls
import Wasim.Text.Rendering
import Wasim.Text.ErrorCount
import Wasim.Text.Unquote
import Wasim.Text.Wat
import Wasim.Wopt.Ir
import Wasim.Wopt.Build
import Wasim.Wopt.BuildRuns
import Wasim.Wopt.Ownership
import Wasim.Wopt.Builders
import Wasim.Wopt.TypeInterner
import Wasim.Wopt.InternerRuns
import Wasim.Wopt.ThreadArena
import Wasim.Wopt.InternerMemory
import Wasim.Wopt.VerifierRuns
import Wasim.Wopt.Types
import Wasim.Wopt.TypeCalls
import Wasim.Wopt.TypeMembers
import Wasim.Wopt.TypeTrees
import Wasim.Wopt.Printer
import Wasim.Wopt.Printed
import Wasim.Wopt.Unambiguous
