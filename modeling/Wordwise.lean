import Wordwise.Engine.Direct
import Wordwise.Engine.Halving
import Wordwise.Relations
import Wordwise.Script.Cursors
import Wordwise.Script.Positions
import Wordwise.Script.Sets
import Wordwise.Walk
import Wordwise.Proofs.Engine.Search
import Wordwise.Proofs.Engine.Agreement
import Wordwise.Proofs.Engine.Builds
import Wordwise.Proofs.Engine.Rounds
import Wordwise.Proofs.Positions
import Wordwise.Proofs.Scan
import Wordwise.Proofs.Collecting
import Wordwise.Proofs.Members
import Wordwise.Proofs.Script
import Wordwise.Proofs.Walk
import Wordwise.Proofs.Queue
import Wordwise.Proofs.Singles
import Wordwise.Proofs.Cursor
import Wordwise.Proofs.Digits
import Wordwise.Proofs.SetRun
import Wordwise.Proofs.Refusals
import Wordwise.Proofs.Totality
import Wordwise.Proofs.Reach
import Wordwise.Proofs.Rounding
import Wordwise.Proofs.Unions
import Wordwise.Proofs.Extremes
import Wordwise.Proofs.Widening
import Wordwise.Proofs.Halves
import Wordwise.Proofs.Sink
import Wordwise.Proofs.Spelling
import Wordwise.Proofs.Roundtrip
import Wordwise.Proofs.Order
import Wordwise.Proofs.Counting
import Wordwise.Proofs.Counter
import Wordwise.Proofs.Carry
import Wordwise.Proofs.Shifting
import Wordwise.Proofs.Conversion
import Wordwise.Proofs.Showing
