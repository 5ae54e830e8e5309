import GlviCbor.Lib.Machine
import GlviCbor.Lib.BigEndian
import GlviCbor.Lib.BinaryFloat
import GlviCbor.Lib.Settle
import GlviCbor.Lib.Inert
import GlviCbor.Lib.Overload
import GlviCbor.Lib.Stream
import GlviCbor.Lib.Sharing
import GlviCbor.Lib.Expand
import GlviCbor.Lib.Greedy
import GlviCbor.Lib.Leftmost
import GlviCbor.Lib.OrderedCode
import GlviCbor.Token
import GlviCbor.Scanner
import GlviCbor.Head
import GlviCbor.Step
import GlviCbor.Reference
import GlviCbor.Limits
import GlviCbor.ScannerErrors
import GlviCbor.Calls
import GlviCbor.Settings
import GlviCbor.Encode
import GlviCbor.Lexer
import GlviCbor.Language
import GlviCbor.Position
import GlviCbor.History
import GlviCbor.DataModel
import GlviCbor.Integers
import GlviCbor.Parser
import GlviCbor.Construct
import GlviCbor.Atoms
import GlviCbor.Accessors
import GlviCbor.Text
import GlviCbor.TagHeap
import GlviCbor.TagCell
import GlviCbor.Consume
import GlviCbor.Symbols
import GlviCbor.ContextStack
import GlviCbor.Protocol
import GlviCbor.Rejected
import GlviCbor.Derivation
import GlviCbor.LeftRecursion
import GlviCbor.Grammar
import GlviCbor.Recovery
import GlviCbor.Depth
import GlviCbor.Seen
