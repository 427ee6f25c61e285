import Criteria.Group.Json
import Criteria.Group.Leaves
import Criteria.Group.Reader
import Criteria.Group.Writer
import Criteria.InputType
import Criteria.Text.Slots
import Criteria.Proofs.Arguments
import Criteria.Proofs.Verb
import Criteria.Proofs.Call
import Criteria.Proofs.Grammar
import Criteria.Proofs.Number.Decimal
import Criteria.Proofs.Number.FloatText
import Criteria.Proofs.Calendar
import Criteria.Proofs.CallText
import Criteria.Proofs.Rendering
import Criteria.Proofs.Condition
import Criteria.Proofs.Mirroring
import Criteria.Proofs.GroupText
import Criteria.Proofs.RoundTrip
import Criteria.Proofs.Meaning
import Criteria.Proofs.Regular
import Criteria.Proofs.Normal
import Criteria.Proofs.Leaves
import Criteria.Proofs.WellFormed
import Criteria.Proofs.TextPass
import Criteria.Proofs.Confinement
import Criteria.Proofs.Json.Number
import Criteria.Proofs.Json.String
import Criteria.Proofs.Json.Text
import Criteria.Proofs.Json.Tree
import Criteria.Proofs.Text.Faults
import Criteria.Proofs.Text.Splitting
import Criteria.Proofs.Naming
import Criteria.Proofs.Typing
import Criteria.Proofs.Composition
import Criteria.Proofs.Erasure
import Criteria.Proofs.Spelling
import Criteria.Proofs.StringOperand
import Criteria.Proofs.ReadError
import Criteria.Proofs.Resplitting
import Criteria.Proofs.Number.Whole
import Criteria.Proofs.Coercion
import Criteria.Proofs.Untyped
import Criteria.Proofs.LiteralList
import Criteria.Proofs.Range
import Criteria.Proofs.Text.Depth
import Criteria.Proofs.Extent
