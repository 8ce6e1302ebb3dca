import Ewokos.Lib.Cells
import Ewokos.Lib.CString
import Ewokos.Lib.Word
import Ewokos.Lib.UndoLog
import Ewokos.Lib.Chain
import Ewokos.Lib.Runs
import Ewokos.Lib.Trace
import Ewokos.Lib.Replace
import Ewokos.Lib.Splice
import Ewokos.Lib.Columns
import Ewokos.Lib.Neighbour
import Ewokos.Lib.Scan
import Ewokos.Lib.Snapshot
import Ewokos.Lib.Prefixes
import Ewokos.Lib.Overlap
import Ewokos.Lib.Checked
import Ewokos.Lib.Slots
import Ewokos.Lib.Probing
import Ewokos.Lib.Heap
import Ewokos.Lib.Ancestry
import Ewokos.Evim.State
import Ewokos.Evim.Lines
import Ewokos.Evim.LineCount
import Ewokos.Evim.Keys
import Ewokos.Evim.KeyCount
import Ewokos.Evim.KeyGroups
import Ewokos.Evim.Screen
import Ewokos.Evim.Format
import Ewokos.Evim.Onscreen
import Ewokos.Evim.CursorColumn
import Ewokos.Evim.Refresh
import Ewokos.Evim.Undo
import Ewokos.Evim.EditSpec
import Ewokos.Evim.UndoExact
import Ewokos.Evim.Edit
import Ewokos.Evim.Motion
import Ewokos.Evim.Ex
import Ewokos.Evim.Command
import Ewokos.Evim.Looking
import Ewokos.Evim.Session
import Ewokos.Evim.Edits
import Ewokos.Evim.CommandEdits
import Ewokos.Evim.Cursor
import Ewokos.Evim.Growth
import Ewokos.Evim.Holes
import Ewokos.Evim.Syntax
import Ewokos.Evim.Tokens
import Ewokos.Evim.LineTokens
import Ewokos.Evim.TokenEnds
import Ewokos.Evim.ScrollColors
import Ewokos.Evim.Repeat
import Ewokos.Evim.Terminal
import Ewokos.Evim.Display
import Ewokos.Evim.Selection
import Ewokos.Evim.Highlight
import Ewokos.Evim.FileInsert
import Ewokos.Evim.FileRead
import Ewokos.Evim.Queue
import Ewokos.Evim.Backspace
import Ewokos.Evim.DeleteAll
import Ewokos.Evim.RangeDelete
import Ewokos.Evim.ColonRead
import Ewokos.Evim.Newline
import Ewokos.Evim.AutoIndent
import Ewokos.Evim.MoveToCol
import Ewokos.Evim.OpenPut
import Ewokos.Evim.QueueSpan
import Ewokos.Evim.Typing
import Ewokos.Evim.VisualLines
import Ewokos.Evim.Substitution
import Ewokos.Evim.Search
import Ewokos.Evim.Join
import Ewokos.Evim.Shift
import Ewokos.Evim.RestoreLine
import Ewokos.Evim.Address
import Ewokos.Evim.InputLine
import Ewokos.Evim.CsiKeys
import Ewokos.Evim.ArgList
import Ewokos.Evim.CursorReport
import Ewokos.Evim.EndOfInput
import Ewokos.Evim.ScrolledLine
import Ewokos.Evim.SpanMask
import Ewokos.Evim.SyntaxBounds
import Ewokos.Evim.CursorLine
import Ewokos.Evim.Pairs
import Ewokos.Evim.Registers
import Ewokos.Evim.Rendition
import Ewokos.Curl.Url
import Ewokos.Curl.Relative
import Ewokos.Curl.Request
import Ewokos.Curl.CurlBuffer
import Ewokos.Curl.Perform
import Ewokos.Curl.Calls
import Ewokos.Curl.Delivery
import Ewokos.Curl.Origin
import Ewokos.Curl.Options
import Ewokos.Curl.FailClosed
import Ewokos.Curl.Hops
import Ewokos.Curl.RedirectMethod
import Ewokos.Curl.TlsCheck
import Ewokos.Curl.GetInfo
import Ewokos.Curl.Modes
import Ewokos.Curl.Upload
import Ewokos.Curl.BasicAuth
import Ewokos.Curl.Escape
import Ewokos.Curl.Multi
import Ewokos.Curl.Bookkeeping
import Ewokos.Curl.Stale
import Ewokos.Tetris.Game
import Ewokos.Tetris.Invariant
import Ewokos.Tetris.Rows
import Ewokos.Tetris.Lines
import Ewokos.Tetris.Stacking
import Ewokos.Tetris.Clearing
import Ewokos.Tetris.Restart
import Ewokos.XBrowser.Browser
import Ewokos.XBrowser.History
import Ewokos.XBrowser.Retry
import Ewokos.Calendar.Widget
import Ewokos.Calendar.Layout
import Ewokos.Calendar.Navigation
import Ewokos.Calculator.Keypad
import Ewokos.Calculator.Entry
import Ewokos.Git.ObjectHash
import Ewokos.Git.ObjectStore
import Ewokos.Git.PrioQueue
import Ewokos.Git.HttpSlots
import Ewokos.Git.HttpLog
import Ewokos.Git.HttpRuns
import Ewokos.Git.Commits
import Ewokos.Git.PaintDown
import Ewokos.Git.MergeBases
import Ewokos.Git.TopoSort
import Ewokos.Git.Rabin
import Ewokos.Git.DeltaIndex
import Ewokos.Git.PatchDelta
import Ewokos.Git.DiffDelta
import Ewokos.Git.OidTree
import Ewokos.Git.Redundant
import Ewokos.Git.GenerationNumbers
import Ewokos.Git.LooseCache
