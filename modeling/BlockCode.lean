import BlockCode.Block
import BlockCode.Compile
import BlockCode.Decimal
import BlockCode.Device.Instruction
import BlockCode.Device.Machine
import BlockCode.Enumerated
import BlockCode.Failure
import BlockCode.Fragment
import BlockCode.Graph
import BlockCode.Node
import BlockCode.Operator
import BlockCode.Precedence
import BlockCode.Report
import BlockCode.Report.Paint
import BlockCode.Sketch
import BlockCode.Table
import BlockCode.Text
import BlockCode.Text.Width
import BlockCode.Trace
import BlockCode.Wire
import BlockCode.Proofs.Reach
import BlockCode.Proofs.FirstFault
import BlockCode.Proofs.Expression
import BlockCode.Proofs.Evaluation
import BlockCode.Proofs.Heights
import BlockCode.Proofs.Postfix
import BlockCode.Proofs.StackBalance
import BlockCode.Proofs.StackNeed
import BlockCode.Proofs.Alike
import BlockCode.Proofs.Drawing
import BlockCode.Proofs.Limits
import BlockCode.Proofs.Spans
import BlockCode.Proofs.ListSketch
import BlockCode.Proofs.NearestBlock
import BlockCode.Proofs.Visit
import BlockCode.Proofs.Segments
import BlockCode.Proofs.EmptySlots
import BlockCode.Proofs.EventLog
import BlockCode.Proofs.Marking
import BlockCode.Proofs.Numeral
import BlockCode.Proofs.RoundTrip
import BlockCode.Proofs.Decoding
import BlockCode.Proofs.Doubles
import BlockCode.Proofs.Rounding
import BlockCode.Proofs.Literals
import BlockCode.Proofs.Punctuation
import BlockCode.Proofs.ShownAlike
import BlockCode.Proofs.UniqueReading
import BlockCode.Proofs.Underline
import BlockCode.Proofs.Colours
import BlockCode.Proofs.ListOperands
import BlockCode.Proofs.Edits
import BlockCode.Proofs.PathDisplay
import BlockCode.Proofs.ListingLines
